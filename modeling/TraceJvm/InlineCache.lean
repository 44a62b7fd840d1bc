import TraceJvm.Lib.Mealy
import TraceJvm.SpecialDispatch

/-! The call sites of `invokevirtual` and `invokeinterface`: the instruction rewrites itself, to a
form that caches the class of one receiver and then to one that looks up in a table. -/
namespace TraceJvm
open Mealy List

inductive CallOp where
  | invokevirtual
  | invokeinterface
  deriving DecidableEq

/-- The forms that the instruction takes, with `ic` and `ic2`. -/
inductive CallSite where
  | unresolved (op : CallOp)
  | invokesigpoly
  | invokespecialResolved (ic : CpMethod)
  | invokevtableMonomorphic (ic : CpMethod) (ic2 : ClassRef)
  | invokevtablePolymorphic (ic2 : ℕ)
  | invokeitableMonomorphic (ic : CpMethod) (ic2 : ClassRef)
  | invokeitablePolymorphic (ic : ClassRef) (ic2 : ℕ)

/-- What a call comes to. An abstract method that is invoked raises its error when its frame is
pushed. `outOfTable` reads behind the end of a vtable. -/
inductive CallResult where
  | nullPointerException
  | abstractMethodError
  | signaturePolymorphic
  | invokes (m : CpMethod)
  | outOfTable
  deriving DecidableEq

namespace ClassWorld

variable (W : ClassWorld)

def vtableLookup (r : ClassRef) (index : ℕ) : Option CpMethod := (W.tables r).vtable[index]?

def vtableCall (r : ClassRef) (index : ℕ) : CallResult :=
  match W.vtableLookup r index with
  | some m => .invokes m
  | none => .outOfTable

def itableCall (r interface : ClassRef) (index : ℕ) : CallResult :=
  match W.itableLookup r interface index with
  | some m => .invokes m
  | none => .abstractMethodError

def cachedCall (resolved : CpMethod) : CallSite → ClassRef → CallResult × CallSite
  | .invokespecialResolved ic, _ => (.invokes ic, .invokespecialResolved ic)
  | .invokevtableMonomorphic ic ic2, r =>
    if r ≠ ic2 then
      -- `make_invokevtable_polymorphic_` reads the index off the cached method
      (W.vtableCall r (W.vtableIndex ic), .invokevtablePolymorphic (W.vtableIndex ic))
    else (.invokes ic, .invokevtableMonomorphic ic ic2)
  | .invokevtablePolymorphic ic2, r => (W.vtableCall r ic2, .invokevtablePolymorphic ic2)
  | .invokeitableMonomorphic ic ic2, r =>
    if r ≠ ic2 then
      (W.itableCall r ⟨resolved.cls, 0⟩ (W.itableIndex resolved),
        .invokeitablePolymorphic ⟨resolved.cls, 0⟩ (W.itableIndex resolved))
    else (.invokes ic, .invokeitableMonomorphic ic ic2)
  | .invokeitablePolymorphic ic ic2, r =>
    (W.itableCall r ic ic2, .invokeitablePolymorphic ic ic2)
  | site, _ => (.signaturePolymorphic, site)

/-- `invokevirtual_impl` from the test for `ACCESS_FINAL` on. -/
def invokevirtualImpl (resolved : CpMethod) (isFinal : Bool) (r : ClassRef) :
    CallResult × CallSite :=
  if isFinal then W.cachedCall resolved (.invokespecialResolved resolved) r
  else
    match W.vtableLookup r (W.vtableIndex resolved) with
    | some m => W.cachedCall resolved (.invokevtableMonomorphic m r) r
    | none => (.outOfTable, .unresolved .invokevirtual)

/-- `invokeinterface_impl` from the lookup on. -/
def invokeinterfaceImpl (resolved : CpMethod) (isFinal : Bool) (r : ClassRef) :
    CallResult × CallSite :=
  match W.itableLookup r ⟨resolved.cls, 0⟩ (W.itableIndex resolved) with
  | none => (.abstractMethodError, .unresolved .invokeinterface)
  | some m =>
    if isFinal then W.cachedCall resolved (.invokespecialResolved resolved) r
    else W.cachedCall resolved (.invokeitableMonomorphic m r) r

/-- One call, once the method reference is resolved: what it comes to and what the instruction is
afterwards. The two unresolved forms jump to each other where the method belongs to the other. -/
def call (resolved : CpMethod) (isFinal : Bool) :
    CallSite → Option ClassRef → CallResult × CallSite
  | site, none => (.nullPointerException, site)
  | .unresolved .invokevirtual, some r =>
    if resolved.isSignaturePolymorphic then W.cachedCall resolved .invokesigpoly r
    else if W.isInterface resolved.cls then W.invokeinterfaceImpl resolved isFinal r
    else W.invokevirtualImpl resolved isFinal r
  | .unresolved .invokeinterface, some r =>
    if W.isInterface resolved.cls then W.invokeinterfaceImpl resolved isFinal r
    else if resolved.isSignaturePolymorphic then W.cachedCall resolved .invokesigpoly r
    else W.invokevirtualImpl resolved isFinal r
  | site, some r => W.cachedCall resolved site r

def callsInterface (resolved : CpMethod) (op : CallOp) : Bool :=
  W.isInterface resolved.cls && (op = .invokeinterface || !resolved.isSignaturePolymorphic)

/-- The lookup of the resolved method in the tables of the receiver's class. -/
def dispatch (resolved : CpMethod) (toInterface : Bool) : Option ClassRef → CallResult
  | none => .nullPointerException
  | some r =>
    if toInterface then W.itableCall r ⟨resolved.cls, 0⟩ (W.itableIndex resolved)
    else if resolved.isSignaturePolymorphic then .signaturePolymorphic
    else W.vtableCall r (W.vtableIndex resolved)

def fillsCache (resolved : CpMethod) (isFinal toInterface : Bool) : Option ClassRef → Bool
  | none => false
  | some r =>
    if toInterface then (W.itableLookup r ⟨resolved.cls, 0⟩ (W.itableIndex resolved)).isSome
    else isFinal || (W.vtableLookup r (W.vtableIndex resolved)).isSome

def SelectsResolved (resolved : CpMethod) (toInterface : Bool) (rs : List (Option ClassRef)) :
    Prop :=
  ∀ r, some r ∈ rs → W.dispatch resolved toInterface (some r) = .invokes resolved

def SlotsAgree (target resolved : CpMethod) (rs : List (Option ClassRef)) : Prop :=
  ∀ r, some r ∈ rs →
    W.vtableLookup r (W.vtableIndex target) = W.vtableLookup r (W.vtableIndex resolved)

def changedReceivers (ic2 : ClassRef) (rs : List (Option ClassRef)) : List (Option ClassRef) :=
  rs.dropWhile fun x => x = none ∨ x = some ic2

def CacheFits (resolved : CpMethod) (isFinal toInterface : Bool) :
    List (Option ClassRef) → Prop
  | some r :: rs =>
    if isFinal then W.SelectsResolved resolved toInterface (some r :: rs)
    else toInterface = true ∨ ∀ target, W.vtableLookup r (W.vtableIndex resolved) = some target →
      W.SlotsAgree target resolved (changedReceivers r rs)
  | _ => True

/-- The condition on the hierarchy and the receivers under which the cache agrees with the
tables. -/
def CacheAgrees (resolved : CpMethod) (isFinal toInterface : Bool)
    (rs : List (Option ClassRef)) : Prop :=
  (toInterface = false ∧ resolved.isSignaturePolymorphic = true) ∨
    W.CacheFits resolved isFinal toInterface
      (rs.dropWhile fun x => !W.fillsCache resolved isFinal toInterface x)

end ClassWorld

section Forms

variable {W : ClassWorld} {resolved : CpMethod} {isFinal toInterface : Bool}

theorem vtableCall_eq_iff {r : ClassRef} {i j : ℕ} :
    W.vtableCall r i = W.vtableCall r j ↔ W.vtableLookup r i = W.vtableLookup r j := by
  unfold ClassWorld.vtableCall
  cases W.vtableLookup r i <;> cases W.vtableLookup r j <;> simp

theorem invokespecialResolved_agrees_iff (xs : List (Option ClassRef)) :
    outputs (W.call resolved isFinal) (.invokespecialResolved resolved) xs =
        xs.map (W.dispatch resolved toInterface) ↔
      W.SelectsResolved resolved toInterface xs := by
  have hkeeps : ∀ x : Option ClassRef,
      W.call resolved isFinal (.invokespecialResolved resolved) x =
        (x.elim .nullPointerException fun _ => .invokes resolved,
          .invokespecialResolved resolved) := by
    intro x
    cases x <;> rfl
  rw [outputs_eq_map_iff hkeeps]
  constructor
  · intro h r hr
    exact (h (some r) hr).symm
  · intro h x hx
    cases x with
    | none => rfl
    | some r => exact (h r hx).symm

/-- A site that has become polymorphic calls what the vtable holds at its index. -/
theorem invokevtablePolymorphic_agrees_iff (target : CpMethod)
    (hpoly : resolved.isSignaturePolymorphic = false) (xs : List (Option ClassRef)) :
    outputs (W.call resolved isFinal) (.invokevtablePolymorphic (W.vtableIndex target)) xs =
        xs.map (W.dispatch resolved false) ↔
      W.SlotsAgree target resolved xs := by
  have hkeeps : ∀ x : Option ClassRef,
      W.call resolved isFinal (.invokevtablePolymorphic (W.vtableIndex target)) x =
        (x.elim .nullPointerException fun r => W.vtableCall r (W.vtableIndex target),
          .invokevtablePolymorphic (W.vtableIndex target)) := by
    intro x
    cases x <;> rfl
  have hplain : ∀ r, W.dispatch resolved false (some r) =
      W.vtableCall r (W.vtableIndex resolved) := by
    intro r
    simp [ClassWorld.dispatch, hpoly]
  rw [outputs_eq_map_iff hkeeps]
  constructor
  · intro h r hr
    have hcall := h (some r) hr
    rw [hplain] at hcall
    exact vtableCall_eq_iff.mp hcall
  · intro h x hx
    cases x with
    | none => rfl
    | some r =>
      rw [hplain]
      exact vtableCall_eq_iff.mpr (h r hx)

theorem exists_of_miss {x : Option ClassRef} {r : ClassRef}
    (h : decide (x = none ∨ x = some r) = false) : ∃ q, x = some q ∧ q ≠ r := by
  obtain ⟨hnone, hne⟩ := not_or.mp (of_decide_eq_false h)
  obtain ⟨q, rfl⟩ := Option.ne_none_iff_exists'.mp hnone
  exact ⟨q, rfl, fun h => hne (congrArg some h)⟩

/-- A site that caches a class of receivers turns polymorphic at the first other class. -/
theorem invokevtableMonomorphic_agrees_iff {r : ClassRef} {target : CpMethod}
    (hpoly : resolved.isSignaturePolymorphic = false)
    (htarget : W.vtableLookup r (W.vtableIndex resolved) = some target)
    (xs : List (Option ClassRef)) :
    outputs (W.call resolved isFinal) (.invokevtableMonomorphic target r) xs =
        xs.map (W.dispatch resolved false) ↔
      W.SlotsAgree target resolved (ClassWorld.changedReceivers r xs) := by
  have hhit : ∀ x : Option ClassRef, decide (x = none ∨ x = some r) = true →
      W.call resolved isFinal (.invokevtableMonomorphic target r) x =
        (W.dispatch resolved false x, .invokevtableMonomorphic target r) := by
    intro x hx
    rcases of_decide_eq_true hx with rfl | rfl
    · rfl
    · simp [ClassWorld.call, ClassWorld.cachedCall, ClassWorld.dispatch, hpoly,
        ClassWorld.vtableCall, htarget]
  have hmiss : ∀ x : Option ClassRef, decide (x = none ∨ x = some r) = false →
      W.call resolved isFinal (.invokevtableMonomorphic target r) x =
        W.call resolved isFinal (.invokevtablePolymorphic (W.vtableIndex target)) x := by
    intro x hx
    obtain ⟨q, rfl, hqr⟩ := exists_of_miss hx
    simp [ClassWorld.call, ClassWorld.cachedCall, hqr]
  rw [outputs_eq_map_iff_dropWhile hhit hmiss]
  exact invokevtablePolymorphic_agrees_iff target hpoly _

/-- The forms for interfaces look up what the unresolved form has looked up. -/
theorem invokeitableMonomorphic_agrees {r : ClassRef} {target : CpMethod}
    (htarget : W.itableLookup r ⟨resolved.cls, 0⟩ (W.itableIndex resolved) = some target)
    (xs : List (Option ClassRef)) :
    outputs (W.call resolved isFinal) (.invokeitableMonomorphic target r) xs =
      xs.map (W.dispatch resolved true) := by
  have hhit : ∀ x : Option ClassRef, decide (x = none ∨ x = some r) = true →
      W.call resolved isFinal (.invokeitableMonomorphic target r) x =
        (W.dispatch resolved true x, .invokeitableMonomorphic target r) := by
    intro x hx
    rcases of_decide_eq_true hx with rfl | rfl
    · rfl
    · simp [ClassWorld.call, ClassWorld.cachedCall, ClassWorld.dispatch, ClassWorld.itableCall,
        htarget]
  have hkeeps : ∀ x : Option ClassRef,
      W.call resolved isFinal
          (.invokeitablePolymorphic ⟨resolved.cls, 0⟩ (W.itableIndex resolved)) x =
        (W.dispatch resolved true x,
          .invokeitablePolymorphic ⟨resolved.cls, 0⟩ (W.itableIndex resolved)) := by
    intro x
    cases x <;> rfl
  have hmiss : ∀ x : Option ClassRef, decide (x = none ∨ x = some r) = false →
      W.call resolved isFinal (.invokeitableMonomorphic target r) x =
        W.call resolved isFinal
          (.invokeitablePolymorphic ⟨resolved.cls, 0⟩ (W.itableIndex resolved)) x := by
    intro x hx
    obtain ⟨q, rfl, hqr⟩ := exists_of_miss hx
    simp [ClassWorld.call, ClassWorld.cachedCall, hqr]
  exact (outputs_eq_map_iff_dropWhile hhit hmiss xs).mpr (outputs_eq_map hkeeps _)

/-- Calls of an interface method. The instruction may become an `invokeinterface` first. -/
theorem interface_agrees_iff {op : CallOp} (hop : W.callsInterface resolved op = true)
    (rs : List (Option ClassRef)) :
    outputs (W.call resolved isFinal) (.unresolved op) rs = rs.map (W.dispatch resolved true) ↔
      W.CacheFits resolved isFinal true
        (rs.dropWhile fun x => !W.fillsCache resolved isFinal true x) := by
  have hunresolved : ∀ {op}, W.callsInterface resolved op = true → ∀ r,
      W.call resolved isFinal (.unresolved op) (some r) =
        W.invokeinterfaceImpl resolved isFinal r := by
    intro op hop r
    simp only [ClassWorld.callsInterface, Bool.and_eq_true] at hop
    cases op with
    | invokevirtual =>
      have hpoly : resolved.isSignaturePolymorphic = false := by simpa using hop.2
      simp [ClassWorld.call, hop.1, hpoly]
    | invokeinterface => simp [ClassWorld.call, hop.1]
  induction rs generalizing op with
  | nil => exact ⟨fun _ => trivial, fun _ => rfl⟩
  | cons x xs ih =>
    cases x with
    | none =>
      have hstep : W.call resolved isFinal (.unresolved op) none =
          (W.dispatch resolved true none, .unresolved op) := by cases op <;> rfl
      rw [dropWhile_cons_of_pos rfl]
      exact (outputs_cons_eq_iff hstep).trans (ih hop)
    | some r =>
      cases hlookup : W.itableLookup r ⟨resolved.cls, 0⟩ (W.itableIndex resolved) with
      | none =>
        have hopI : W.callsInterface resolved .invokeinterface = true := by
          simp only [ClassWorld.callsInterface, Bool.and_eq_true] at hop ⊢
          exact ⟨hop.1, rfl⟩
        have hstep : W.call resolved isFinal (.unresolved op) (some r) =
            (W.dispatch resolved true (some r), .unresolved .invokeinterface) := by
          rw [hunresolved hop]
          simp [ClassWorld.invokeinterfaceImpl, ClassWorld.dispatch, ClassWorld.itableCall,
            hlookup]
        rw [dropWhile_cons_of_pos (by simp [ClassWorld.fillsCache, hlookup])]
        exact (outputs_cons_eq_iff hstep).trans (ih hopI)
      | some target =>
        rw [dropWhile_cons_of_neg (by simp [ClassWorld.fillsCache, hlookup])]
        cases isFinal with
        | true =>
          have hstep : W.call resolved true (.unresolved op) (some r) =
              W.call resolved true (.invokespecialResolved resolved) (some r) := by
            rw [hunresolved hop, ClassWorld.invokeinterfaceImpl, hlookup]
            rfl
          rw [outputs_cons_congr hstep]
          exact invokespecialResolved_agrees_iff _
        | false =>
          have hstep : W.call resolved false (.unresolved op) (some r) =
              W.call resolved false (.invokeitableMonomorphic target r) (some r) := by
            rw [hunresolved hop, ClassWorld.invokeinterfaceImpl, hlookup]
            rfl
          rw [outputs_cons_congr hstep]
          exact ⟨fun _ => .inl rfl, fun _ => invokeitableMonomorphic_agrees hlookup _⟩

/-- Calls of a class method. The instruction may become an `invokevirtual` first. -/
theorem virtual_agrees_iff {op : CallOp} (hop : W.callsInterface resolved op = false)
    (hpoly : resolved.isSignaturePolymorphic = false) (rs : List (Option ClassRef)) :
    outputs (W.call resolved isFinal) (.unresolved op) rs = rs.map (W.dispatch resolved false) ↔
      W.CacheFits resolved isFinal false
        (rs.dropWhile fun x => !W.fillsCache resolved isFinal false x) := by
  have hclass : W.isInterface resolved.cls = false := by
    simpa [ClassWorld.callsInterface, hpoly] using hop
  have hunresolved : ∀ op r, W.call resolved isFinal (.unresolved op) (some r) =
      W.invokevirtualImpl resolved isFinal r := by
    intro op r
    cases op <;> simp [ClassWorld.call, hclass, hpoly]
  have hplain : ∀ r, W.dispatch resolved false (some r) =
      W.vtableCall r (W.vtableIndex resolved) := by
    intro r
    simp [ClassWorld.dispatch, hpoly]
  clear hop
  induction rs generalizing op with
  | nil => exact ⟨fun _ => trivial, fun _ => rfl⟩
  | cons x xs ih =>
    cases x with
    | none =>
      have hstep : W.call resolved isFinal (.unresolved op) none =
          (W.dispatch resolved false none, .unresolved op) := by cases op <;> rfl
      rw [dropWhile_cons_of_pos rfl]
      exact (outputs_cons_eq_iff hstep).trans ih
    | some r =>
      cases isFinal with
      | true =>
        have hstep : W.call resolved true (.unresolved op) (some r) =
            W.call resolved true (.invokespecialResolved resolved) (some r) := hunresolved op r
        rw [dropWhile_cons_of_neg (by simp [ClassWorld.fillsCache]), outputs_cons_congr hstep]
        exact invokespecialResolved_agrees_iff _
      | false =>
        cases hlookup : W.vtableLookup r (W.vtableIndex resolved) with
        | none =>
          have hstep : W.call resolved false (.unresolved op) (some r) =
              (W.dispatch resolved false (some r), .unresolved .invokevirtual) := by
            rw [hunresolved, hplain]
            simp [ClassWorld.invokevirtualImpl, ClassWorld.vtableCall, hlookup]
          rw [dropWhile_cons_of_pos (by simp [ClassWorld.fillsCache, hlookup])]
          exact (outputs_cons_eq_iff hstep).trans ih
        | some target =>
          have hstep : W.call resolved false (.unresolved op) (some r) =
              W.call resolved false (.invokevtableMonomorphic target r) (some r) := by
            rw [hunresolved, ClassWorld.invokevirtualImpl, hlookup]
            rfl
          rw [dropWhile_cons_of_neg (by simp [ClassWorld.fillsCache, hlookup]),
            outputs_cons_congr hstep, invokevtableMonomorphic_agrees_iff hpoly hlookup,
            ClassWorld.changedReceivers, dropWhile_cons_of_pos (by simp)]
          constructor
          · intro h
            refine .inr fun t ht => ?_
            cases hlookup.symm.trans ht
            exact h
          · intro h
            exact (h.resolve_left Bool.false_ne_true) target hlookup

end Forms

/-- The calls of a site come to what the tables say, for each receiver, exactly where the cached
method shares its slots with the resolved one. -/
theorem inlineCache_agrees_iff (W : ClassWorld) (resolved : CpMethod) (isFinal : Bool) (op : CallOp)
    (rs : List (Option ClassRef)) :
    outputs (W.call resolved isFinal) (.unresolved op) rs =
        rs.map (W.dispatch resolved (W.callsInterface resolved op)) ↔
      W.CacheAgrees resolved isFinal (W.callsInterface resolved op) rs := by
  unfold ClassWorld.CacheAgrees
  cases hop : W.callsInterface resolved op with
  | true =>
    rw [interface_agrees_iff hop]
    simp
  | false =>
    cases hpoly : resolved.isSignaturePolymorphic with
    | false =>
      rw [virtual_agrees_iff hop hpoly]
      simp
    | true =>
      have hkeeps : ∀ x : Option ClassRef, W.call resolved isFinal .invokesigpoly x =
          (W.dispatch resolved false x, .invokesigpoly) := by
        intro x
        cases x with
        | none => rfl
        | some r => simp [ClassWorld.call, ClassWorld.cachedCall, ClassWorld.dispatch, hpoly]
      have hnull : ∀ x : Option ClassRef, x.isNone = true →
          W.call resolved isFinal (.unresolved op) x =
            (W.dispatch resolved false x, .unresolved op) := by
        intro x hx
        obtain rfl := Option.isNone_iff_eq_none.mp hx
        cases op <;> rfl
      have hcall : ∀ x : Option ClassRef, x.isNone = false →
          W.call resolved isFinal (.unresolved op) x =
            W.call resolved isFinal .invokesigpoly x := by
        intro x hx
        cases x with
        | none => cases hx
        | some r =>
          cases op with
          | invokevirtual => simp [ClassWorld.call, hpoly]
          | invokeinterface =>
            have hclass : W.isInterface resolved.cls = false := by
              simpa [ClassWorld.callsInterface] using hop
            simp [ClassWorld.call, hclass, hpoly]
      refine ⟨fun _ => .inl ⟨rfl, rfl⟩, fun _ => ?_⟩
      exact (outputs_eq_map_iff_dropWhile hnull hcall rs).mpr (outputs_eq_map hkeeps _)

/-- The method `m`, which only `b/C` declares public. -/
def packageMethod (cls : ℕ) : CpMethod :=
  ⟨cls, 0, "m", "()V", cls = 5, false, false, false, false, false⟩

/-- `class a/A`, `class b/B extends a/A` and `class b/C extends b/B`, each with a method `m`: that of
`b/B` does not override that of `a/A`, and that of `b/C` overrides both. -/
def packageOverrides : ClassWorld where
  isPrimitive _ := false
  superClass
    | 0 => none
    | 4 => some 3
    | 5 => some 4
    | _ => some 0
  interfaces _ := []
  hasClinit _ := false
  verifies _ := true
  object := 0
  cloneable := 1
  serializable := 2
  super_lt := constructorClasses.super_lt
  interfaces_lt := Hierarchy.lt_of_mem_nil
  className
    | 0 => "java/lang/Object"
    | 3 => "a/A"
    | 4 => "b/B"
    | _ => "b/C"
  loader _ := 0
  isInterface c := c = 1 ∨ c = 2
  methods c := if 3 ≤ c ∧ c ≤ 5 then [packageMethod c] else []
  my_class := by
    intro c m h
    split at h
    · rw [mem_singleton.mp h]
      rfl
    · cases h
  my_index := by
    intro c i m h
    split at h
    · rcases i with _ | i
      · rw [← Option.some.inj h]
        rfl
      · cases h
    · cases h

/-- A call of `a/A.m` on a `b/C` and then on a `b/B` invokes `b/B.m`, where the vtable of `b/B` holds
`a/A.m` for it. -/
theorem inlineCache_wrongMethod :
    packageOverrides.vtableIndex (packageMethod 3) = 0 ∧
      packageOverrides.vtableIndex (packageMethod 5) = 1 ∧
      outputs (packageOverrides.call (packageMethod 3) false) (.unresolved .invokevirtual)
        [some ⟨5, 0⟩, some ⟨4, 0⟩] = [.invokes (packageMethod 5), .invokes (packageMethod 4)] ∧
      [some ⟨5, 0⟩, some ⟨4, 0⟩].map (packageOverrides.dispatch (packageMethod 3)
        (packageOverrides.callsInterface (packageMethod 3) .invokevirtual)) =
          [.invokes (packageMethod 5), .invokes (packageMethod 3)] := by
  refine ⟨?_, ?_, ?_, ?_⟩ <;> decide +kernel

end TraceJvm
