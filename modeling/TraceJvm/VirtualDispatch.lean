import Mathlib.Data.List.Induction
import Mathlib.Data.List.Nodup
import TraceJvm.FunctionTables

/-! Virtual dispatch. The slot that linking gives to a method is followed down the superclass
chain and compared with the method selection of the Java Virtual Machine Specification, 5.4.6. -/
namespace TraceJvm

open Function List Option

namespace ClassWorld

variable (W : ClassWorld)

/-! ### The tables satisfy the equation of `set_up_function_tables` -/

/-- The declared method that takes the slot of `e` when `r` is linked. -/
def replacement (r : ClassRef) (e : CpMethod) : Option CpMethod :=
  (W.declared r e.name e.descriptor).filter fun x => W.methodOverrides x e

variable {W}

theorem mem_itableSources {r p : ClassRef} :
    p ∈ W.itableSources r ↔ p ∈ W.interfacesOf r ∨ W.superOf r = some p := by
  simp [itableSources]

theorem mem_supers {r p : ClassRef} : p ∈ W.supers r ↔ p ∈ W.itableSources r := by
  rw [mem_itableSources]
  unfold superOf interfacesOf Hierarchy.supers
  split
  · simp [or_comm]
  · simp only [mem_cons, some.injEq]
    constructor
    · rintro (rfl | h)
      · exact .inr rfl
      · exact .inl h
    · rintro (h | rfl)
      · exact .inr h
      · exact .inl rfl

theorem superOf_mem_supers {r p : ClassRef} (h : W.superOf r = some p) : p ∈ W.supers r :=
  mem_supers.mpr (mem_itableSources.mpr (.inr h))

theorem superOf_dims {r p : ClassRef} (h : W.superOf r = some p) : p.dims = 0 :=
  W.supers_dims (superOf_mem_supers h)

theorem supers_induction {motive : ClassRef → Prop}
    (h : ∀ r, (∀ p ∈ W.supers r, motive p) → motive r) (r : ClassRef) : motive r := by
  have hclass : ∀ c, motive ⟨c, 0⟩ := by
    intro c
    induction c using Nat.strong_induction_on with
    | _ c ih =>
      apply h
      intro p hp
      have hlt := W.supers_base_lt hp rfl
      obtain ⟨q, d⟩ := p
      obtain rfl : d = 0 := W.supers_dims hp
      exact ih q hlt
  apply h
  intro p hp
  obtain ⟨q, d⟩ := p
  obtain rfl : d = 0 := W.supers_dims hp
  exact hclass q

theorem copySlot_eq (vtIndex : CpMethod → ℕ) (r : ClassRef) (t : FunctionTables)
    (e : CpMethod) :
    FunctionTables.copySlot W vtIndex r t e =
      match W.replacement r e with
      | some x =>
          { t with
            vtable := t.vtable ++ [x]
            vtableIndex := update t.vtableIndex x.index (vtIndex e)
            overrides := update t.overrides x.index true }
      | none => { t with vtable := t.vtable ++ [e] } := by
  unfold FunctionTables.copySlot replacement
  cases hd : W.declared r e.name e.descriptor with
  | none => rfl
  | some x => cases ho : W.methodOverrides x e <;> simp [Option.filter, ho]

/-- What copying the slots `l` of the superclass has written. -/
theorem foldl_copySlot (vtIndex : CpMethod → ℕ) (r : ClassRef) (l : List CpMethod) :
    let t := l.foldl (FunctionTables.copySlot W vtIndex r) FunctionTables.empty
    t.vtable = l.map (fun e => (W.replacement r e).getD e) ∧
      (∀ e ∈ l, ∀ x, W.replacement r e = some x → t.overrides x.index = true) ∧
      ∀ k, t.overrides k = true → ∃ e ∈ l, ∃ x, W.replacement r e = some x ∧ x.index = k ∧
        t.vtableIndex k = vtIndex e := by
  induction l using List.reverseRecOn with
  | nil => simp [FunctionTables.empty]
  | append_singleton l e ih =>
    obtain ⟨hv, ho, hk⟩ := ih
    simp only [foldl_append, foldl_cons, foldl_nil, copySlot_eq]
    cases hr : W.replacement r e with
    | none =>
      refine ⟨by simp [hv, hr], ?_, ?_⟩
      · intro e' he' x hx
        rcases mem_append.mp he' with he' | he'
        · exact ho e' he' x hx
        · obtain rfl := mem_singleton.mp he'
          simp [hr] at hx
      · intro k h
        obtain ⟨e', he', x, hx, hxk, hi⟩ := hk k h
        exact ⟨e', by simp [he'], x, hx, hxk, hi⟩
    | some x =>
      refine ⟨by simp [hv, hr], ?_, ?_⟩
      · intro e' he' y hy
        by_cases hyx : y.index = x.index
        · simp [hyx]
        · rcases mem_append.mp he' with he' | he'
          · simpa [hyx] using ho e' he' y hy
          · obtain rfl := mem_singleton.mp he'
            cases hr.symm.trans hy
            exact absurd rfl hyx
      · intro k h
        by_cases hkx : k = x.index
        · subst hkx
          exact ⟨e, by simp, x, hr, rfl, by simp⟩
        · simp only [update_of_ne hkx] at h ⊢
          obtain ⟨e', he', y, hy, hyk, hi⟩ := hk k h
          exact ⟨e', by simp [he'], y, hy, hyk, hi⟩

/-- What pushing the new methods `l` of a class has written. -/
theorem foldl_pushVirtual (l : List CpMethod) (hl : (l.map CpMethod.index).Nodup)
    (t : FunctionTables) :
    let u := l.foldl FunctionTables.pushVirtual t
    u.overrides = t.overrides ∧ u.itables = t.itables ∧ u.itableIndex = t.itableIndex ∧
      (∃ l', u.vtable = t.vtable ++ l' ∧
        ∀ m, m ∈ l' ↔ m ∈ l ∧ m.isVirtual ∧ t.overrides m.index = false) ∧
      (∀ k, t.overrides k = true ∨ k ∉ l.map CpMethod.index →
        u.vtableIndex k = t.vtableIndex k) ∧
      ∀ m ∈ l, m.isVirtual → t.overrides m.index = false →
        u.vtable[u.vtableIndex m.index]? = some m := by
  induction l generalizing t with
  | nil => simp
  | cons a l ih =>
    rw [map_cons, nodup_cons] at hl
    obtain ⟨hal, hl⟩ := hl
    obtain ⟨ho, hit, hix, ⟨l', hv, hmem⟩, hkeep, hpos⟩ := ih hl (t.pushVirtual a)
    simp only [foldl_cons]
    by_cases hc : a.isVirtual = true ∧ t.overrides a.index = false
    · have hp : t.pushVirtual a =
          { t with
            vtable := t.vtable ++ [a]
            vtableIndex := update t.vtableIndex a.index t.vtable.length } := by
        simp [FunctionTables.pushVirtual, hc.1, hc.2]
      rw [hp] at ho hit hix hv hmem hkeep hpos ⊢
      dsimp only at ho hit hix hv hmem hkeep hpos ⊢
      refine ⟨ho, hit, hix, ⟨a :: l', by rw [hv]; simp, ?_⟩, ?_, ?_⟩
      · intro m
        rw [mem_cons, hmem, mem_cons]
        constructor
        · rintro (rfl | h)
          · exact ⟨.inl rfl, hc.1, hc.2⟩
          · exact ⟨.inr h.1, h.2⟩
        · rintro ⟨rfl | h, h2⟩
          · exact .inl rfl
          · exact .inr ⟨h, h2⟩
      · intro k hk
        have hka : k ≠ a.index := by
          rintro rfl
          rcases hk with hk | hk
          · simp [hc.2] at hk
          · simp at hk
        rw [hkeep k (hk.imp id fun h => fun h' => h (by simp [h'])), update_of_ne hka]
      · intro m hm hvm hom
        rcases mem_cons.mp hm with rfl | hm
        · rw [hkeep m.index (.inr hal), update_self, hv]
          simp
        · exact hpos m hm hvm hom
    · have hp : t.pushVirtual a = t := by
        unfold FunctionTables.pushVirtual
        rw [if_neg]
        simpa using hc
      rw [hp] at ho hit hix hv hmem hkeep hpos ⊢
      refine ⟨ho, hit, hix, ⟨l', hv, ?_⟩, ?_, ?_⟩
      · intro m
        rw [hmem, mem_cons]
        constructor
        · rintro ⟨h, h2⟩
          exact ⟨.inr h, h2⟩
        · rintro ⟨rfl | h, h2⟩
          · exact absurd h2 hc
          · exact ⟨h, h2⟩
      · intro k hk
        exact hkeep k (hk.imp id fun h => fun h' => h (by simp [h']))
      · intro m hm hvm hom
        rcases mem_cons.mp hm with rfl | hm
        · exact absurd ⟨hvm, hom⟩ hc
        · exact hpos m hm hvm hom

variable {r : ClassRef} {m : CpMethod}

theorem methodsOf_cls (h : m ∈ W.methodsOf r) : r = ⟨m.cls, 0⟩ := by
  unfold methodsOf at h
  split at h
  · rename_i h0
    obtain ⟨c, d⟩ := r
    obtain rfl : d = 0 := h0
    rw [W.my_class h]
  · cases h

theorem methodsOf_index_nodup (r : ClassRef) :
    ((W.methodsOf r).map CpMethod.index).Nodup := by
  unfold methodsOf
  split
  · have h : (W.methods r.base).map CpMethod.index = List.range (W.methods r.base).length := by
      apply ext_getElem
      · simp
      · intro i h1 h2
        simp only [getElem_map, getElem_range]
        exact W.my_index (getElem?_eq_getElem (by simpa using h1))
    rw [h]
    exact nodup_range
  · exact nodup_nil

variable {x y : CpMethod}

theorem eq_of_index_eq (hx : x ∈ W.methodsOf r)
    (hy : y ∈ W.methodsOf r) (h : x.index = y.index) : x = y :=
  inj_on_of_nodup_map (methodsOf_index_nodup r) hx hy h

variable {e : CpMethod}

theorem replacement_mem (h : W.replacement r e = some x) : x ∈ W.methodsOf r := by
  obtain ⟨hd, -⟩ := Option.filter_eq_some_iff.mp h
  exact mem_of_find?_eq_some hd

theorem addItables_vtable (T : ClassRef → FunctionTables) (r : ClassRef)
    (t : FunctionTables) : (W.addItables T r t).vtable = t.vtable := by
  unfold addItables
  dsimp only
  split <;> rfl

theorem setUp_slot (T : ClassRef → FunctionTables) {r p : ClassRef} {i : ℕ}
    (hp : W.superOf r = some p) (he : (T p).vtable[i]? = some e) :
    (W.setUpFunctionTables T r).vtable[i]? = some ((W.replacement r e).getD e) := by
  obtain ⟨-, -, -, ⟨l', hv, -⟩, -⟩ := foldl_pushVirtual (W.methodsOf r)
    (methodsOf_index_nodup r) (W.addItables T r (W.copyVtable T r))
  have hcopy : (W.copyVtable T r).vtable =
      (T p).vtable.map fun e => (W.replacement r e).getD e := by
    unfold copyVtable
    rw [hp]
    exact (foldl_copySlot _ r _).1
  obtain ⟨hlt, -⟩ := List.getElem?_eq_some_iff.mp he
  unfold setUpFunctionTables
  rw [hv, addItables_vtable, hcopy, getElem?_append_left (by simpa using hlt), getElem?_map, he]
  rfl

variable {T : ClassRef → FunctionTables}

theorem mem_vtable_setUp (h : m ∈ (W.setUpFunctionTables T r).vtable) :
    (∃ p e, W.superOf r = some p ∧ e ∈ (T p).vtable ∧ (W.replacement r e).getD e = m) ∨
      m ∈ W.methodsOf r ∧ m.isVirtual := by
  obtain ⟨-, -, -, ⟨l', hv, hl'⟩, -⟩ := foldl_pushVirtual (W.methodsOf r)
    (methodsOf_index_nodup r) (W.addItables T r (W.copyVtable T r))
  unfold setUpFunctionTables at h
  rw [hv, addItables_vtable] at h
  rcases mem_append.mp h with h | h
  · unfold copyVtable at h
    cases hp : W.superOf r with
    | none => simp [hp, FunctionTables.empty] at h
    | some p =>
      simp only [hp] at h
      rw [(foldl_copySlot _ r _).1] at h
      obtain ⟨e, he, hm⟩ := mem_map.mp h
      exact .inl ⟨p, e, rfl, he, hm⟩
  · have hm := (hl' m).mp h
    exact .inr ⟨hm.1, hm.2.1⟩

/-- Linking a class reads the tables of its direct supertypes and the vtable indices of the
methods that its superclass has in its vtable. -/
theorem setUp_congr {T' : ClassRef → FunctionTables} (h : ∀ p ∈ W.supers r, T p = T' p)
    (hv : ∀ p, W.superOf r = some p → ∀ m ∈ (T p).vtable, T ⟨m.cls, 0⟩ = T' ⟨m.cls, 0⟩) :
    W.setUpFunctionTables T r = W.setUpFunctionTables T' r := by
  have hcopy : W.copyVtable T r = W.copyVtable T' r := by
    unfold copyVtable
    cases hp : W.superOf r with
    | none => rfl
    | some p =>
      dsimp only
      rw [← h p (superOf_mem_supers hp)]
      apply foldl_ext
      intro t e he
      rw [copySlot_eq, copySlot_eq, hv p hp e he]
  have hitables : W.setupItables T r = W.setupItables T' r := by
    have hsrc : (W.itableSources r).flatMap (fun p => (T p).itables) =
        (W.itableSources r).flatMap fun p => (T' p).itables := by
      apply flatMap_congr
      intro p hp
      rw [h p (mem_supers.mpr hp)]
    unfold setupItables
    rw [hsrc]
  unfold setUpFunctionTables addItables
  rw [hcopy, hitables]

theorem tablesBelow_of_lt {c n : ℕ} (h : c < n) :
    W.tablesBelow n ⟨c, 0⟩ = W.setUpFunctionTables (W.tablesBelow c) ⟨c, 0⟩ := by
  induction n with
  | zero => omega
  | succ n ih =>
    rw [show W.tablesBelow (n + 1) = update (W.tablesBelow n) ⟨n, 0⟩
      (W.setUpFunctionTables (W.tablesBelow n) ⟨n, 0⟩) from rfl]
    by_cases hc : c = n
    · subst hc
      rw [update_self]
    · rw [update_of_ne (by simpa using hc)]
      exact ih (by omega)

theorem cls_le_of_mem_vtable {c : ℕ}
    (h : m ∈ (W.setUpFunctionTables (W.tablesBelow c) ⟨c, 0⟩).vtable) : m.cls ≤ c := by
  induction c using Nat.strong_induction_on with
  | _ c ih =>
    have hown : m ∈ W.methodsOf ⟨c, 0⟩ → m.cls ≤ c := by
      intro hm
      have hc := methodsOf_cls hm
      simp only [ClassRef.mk.injEq] at hc
      omega
    rcases mem_vtable_setUp h with ⟨p, e, hp, he, hm⟩ | hm
    · cases hr : W.replacement ⟨c, 0⟩ e with
      | some x =>
        obtain rfl : x = m := by simpa [hr] using hm
        exact hown (replacement_mem hr)
      | none =>
        obtain rfl : e = m := by simpa [hr] using hm
        have hlt : p.base < c := W.supers_base_lt (superOf_mem_supers hp) rfl
        obtain ⟨q, d⟩ := p
        obtain rfl : d = 0 := superOf_dims hp
        rw [tablesBelow_of_lt hlt] at he
        exact (ih q hlt he).trans hlt.le
    · exact hown hm.1

theorem setUp_tablesBelow {n : ℕ} (h : ∀ p ∈ W.supers r, p.base < n)
    (hT : ∀ c, c < n → T ⟨c, 0⟩ = W.setUpFunctionTables (W.tablesBelow c) ⟨c, 0⟩) :
    W.setUpFunctionTables T r = W.setUpFunctionTables (W.tablesBelow n) r := by
  apply setUp_congr
  · intro p hp
    obtain ⟨q, d⟩ := p
    obtain rfl : d = 0 := W.supers_dims hp
    rw [hT q (h _ hp), tablesBelow_of_lt (h _ hp)]
  · intro p hp m hm
    have hlt := h p (superOf_mem_supers hp)
    obtain ⟨q, d⟩ := p
    obtain rfl : d = 0 := superOf_dims hp
    rw [hT q hlt] at hm
    have hc := cls_le_of_mem_vtable hm
    rw [hT _ (lt_of_le_of_lt hc hlt), tablesBelow_of_lt (lt_of_le_of_lt hc hlt)]

theorem tables_class (c : ℕ) :
    W.tables ⟨c, 0⟩ = W.setUpFunctionTables (W.tablesBelow c) ⟨c, 0⟩ := by
  unfold tables
  apply setUp_tablesBelow
  · intro p hp
    exact W.supers_base_lt hp rfl
  · intro q hq
    apply tablesBelow_of_lt
    simp only [Hierarchy.span, if_true]
    omega

theorem tables_eq (r : ClassRef) : W.tables r = W.setUpFunctionTables W.tables r := by
  rw [setUp_tablesBelow (n := W.span r)]
  · rfl
  · intro p hp
    exact W.supers_base_lt_span hp
  · intro c _
    exact tables_class c

theorem tables_slot {r p : ClassRef} {i : ℕ} (hp : W.superOf r = some p)
    (he : (W.tables p).vtable[i]? = some e) :
    (W.tables r).vtable[i]? = some ((W.replacement r e).getD e) := by
  rw [tables_eq]
  exact setUp_slot W.tables hp he

theorem mem_vtable_cases (h : m ∈ (W.tables r).vtable) :
    (∃ p e, W.superOf r = some p ∧ e ∈ (W.tables p).vtable ∧ (W.replacement r e).getD e = m) ∨
      m ∈ W.methodsOf r ∧ m.isVirtual := by
  rw [tables_eq] at h
  exact mem_vtable_setUp h

theorem setUpFunctionTables_itables (T : ClassRef → FunctionTables) (r : ClassRef) :
    (W.setUpFunctionTables T r).itables =
      (if (W.superOf r).isSome then W.setupItables T r else []) ++
        if W.interfaceFlag r then [⟨r, (W.itableMethods r).map .make⟩] else [] := by
  obtain ⟨-, hit, -⟩ := foldl_pushVirtual (W.methodsOf r)
    (methodsOf_index_nodup r) (W.addItables T r (W.copyVtable T r))
  rw [setUpFunctionTables, hit, addItables]
  split <;> simp

theorem tables_itables (r : ClassRef) :
    (W.tables r).itables =
      (if (W.superOf r).isSome then W.setupItables W.tables r else []) ++
        if W.interfaceFlag r then [⟨r, (W.itableMethods r).map .make⟩] else [] := by
  rw [tables_eq]
  exact setUpFunctionTables_itables W.tables r

theorem tables_itableIndex (h : W.interfaceFlag r) (i : ℕ) :
    (W.tables r).itableIndex i = (W.itableMethods r).findIdx fun m => m.index = i := by
  obtain ⟨-, -, hix, -⟩ := foldl_pushVirtual (W.methodsOf r)
    (methodsOf_index_nodup r) (W.addItables W.tables r (W.copyVtable W.tables r))
  rw [tables_eq, setUpFunctionTables, hix, addItables]
  simp [h]

/-- The index of a declared method is the index of a slot that it replaces, if there is one, and
otherwise a new slot. -/
theorem declared_index (hm : m ∈ W.methodsOf r)
    (h : m.isVirtual ∨ ∃ p e, W.superOf r = some p ∧ e ∈ (W.tables p).vtable ∧
      W.replacement r e = some m) :
    (∃ p e, W.superOf r = some p ∧ e ∈ (W.tables p).vtable ∧ W.replacement r e = some m ∧
      W.vtableIndex m = W.vtableIndex e) ∨
    (W.tables r).vtable[W.vtableIndex m]? = some m := by
  have hr := methodsOf_cls hm
  have hidx : W.vtableIndex m = (W.tables r).vtableIndex m.index := by rw [vtableIndex, hr]
  obtain ⟨-, -, -, -, hkeep, hpos⟩ := foldl_pushVirtual (W.methodsOf r)
    (methodsOf_index_nodup r) (W.addItables W.tables r (W.copyVtable W.tables r))
  have hadd : (W.addItables W.tables r (W.copyVtable W.tables r)).overrides =
      (W.copyVtable W.tables r).overrides ∧
      (W.addItables W.tables r (W.copyVtable W.tables r)).vtableIndex =
      (W.copyVtable W.tables r).vtableIndex := by
    unfold addItables
    dsimp only
    split <;> exact ⟨rfl, rfl⟩
  rw [hadd.1, hadd.2] at hkeep
  rw [hadd.1] at hpos
  rw [hidx, tables_eq r]
  unfold setUpFunctionTables
  cases hp : W.superOf r with
  | none =>
    have hcopy : W.copyVtable W.tables r = FunctionTables.empty := by simp [copyVtable, hp]
    right
    apply hpos m hm _ (by rw [hcopy]; rfl)
    rcases h with h | ⟨p, -, h, -⟩
    · exact h
    · simp [hp] at h
  | some p =>
    have hcopy : W.copyVtable W.tables r =
        (W.tables p).vtable.foldl (FunctionTables.copySlot W W.vtableIndex r)
          FunctionTables.empty := by
      simp only [copyVtable, hp]
      rfl
    obtain ⟨-, hover, hfrom⟩ := foldl_copySlot W.vtableIndex r (W.tables p).vtable
    rw [← hcopy] at hover hfrom
    by_cases ho : (W.copyVtable W.tables r).overrides m.index = true
    · left
      obtain ⟨e, he, x, hx, hxm, hi⟩ := hfrom _ ho
      obtain rfl := eq_of_index_eq (replacement_mem hx) hm hxm
      exact ⟨p, e, rfl, he, hx, by rw [hkeep _ (.inl ho), hi]⟩
    · right
      refine hpos m hm ?_ (by simpa using ho)
      rcases h with h | ⟨p', e, hp', he, hx⟩
      · exact h
      · cases hp.symm.trans hp'
        exact absurd (hover e he m hx) ho

/-- Every method of a vtable is found at its own index. -/
theorem vtable_index_self (h : m ∈ (W.tables r).vtable) :
    (W.tables r).vtable[W.vtableIndex m]? = some m := by
  induction r using supers_induction (W := W) generalizing m with
  | _ r ih =>
    have hslot : ∀ p e, W.superOf r = some p → e ∈ (W.tables p).vtable →
        (W.tables r).vtable[W.vtableIndex e]? = some ((W.replacement r e).getD e) := by
      intro p e hp he
      exact tables_slot hp (ih p (superOf_mem_supers hp) he)
    have hown : m ∈ W.methodsOf r → (m.isVirtual ∨ ∃ p e, W.superOf r = some p ∧
        e ∈ (W.tables p).vtable ∧ W.replacement r e = some m) →
        (W.tables r).vtable[W.vtableIndex m]? = some m := by
      intro hm hv
      rcases declared_index hm hv with ⟨p, e, hp, he, hx, hi⟩ | h
      · rw [hi, hslot p e hp he, hx]
        rfl
      · exact h
    rcases mem_vtable_cases h with ⟨p, e, hp, he, rfl⟩ | ⟨hm, hv⟩
    · cases hx : W.replacement r e with
      | none => simpa [hx] using hslot p e hp he
      | some x =>
        rw [hx] at hown
        exact hown (replacement_mem hx) (.inr ⟨p, e, hp, he, hx⟩)
    · exact hown hm (.inl hv)

theorem declared_vtable_index (hm : m ∈ W.methodsOf r)
    (hv : m.isVirtual) : (W.tables r).vtable[W.vtableIndex m]? = some m := by
  rcases declared_index hm (.inl hv) with ⟨p, e, hp, he, hx, hi⟩ | h
  · rw [hi, tables_slot hp (vtable_index_self he), hx]
    rfl
  · exact h

/-! ### Method selection -/

variable (W)

def Subclass : ClassRef → ClassRef → Prop := Relation.ReflTransGen fun c p => W.superOf c = some p

def StrictSubclass : ClassRef → ClassRef → Prop :=
  Relation.TransGen fun c p => W.superOf c = some p

def SamePackage (a b : ℕ) : Prop :=
  packageName (W.className a) = packageName (W.className b) ∧ W.loader a = W.loader b

/-- The conditions of 5.4.5 that do not depend on the access of the overridden method. -/
def OverrideCandidate (c a : CpMethod) : Prop :=
  c.isStatic = false ∧ a.isStatic = false ∧ c.name = a.name ∧ c.descriptor = a.descriptor ∧
    c.isPrivate = false

/-- `c` can override `a` in the sense of 5.4.5. -/
inductive CanOverride : CpMethod → CpMethod → Prop where
  | visible {c a : CpMethod} : OverrideCandidate c a → a.isPublic ∨ a.isProtected →
      CanOverride c a
  | samePackage {c a : CpMethod} : OverrideCandidate c a → a.isPublic = false →
      a.isProtected = false → a.isPrivate = false → W.SamePackage c.cls a.cls → CanOverride c a
  | through {c a : CpMethod} (b : CpMethod) : OverrideCandidate c a → a.isPublic = false →
      a.isProtected = false → a.isPrivate = false → b ∈ W.methods b.cls →
      W.StrictSubclass ⟨c.cls, 0⟩ ⟨b.cls, 0⟩ → W.StrictSubclass ⟨b.cls, 0⟩ ⟨a.cls, 0⟩ →
      CanOverride c b → CanOverride b a → CanOverride c a

def Overrides (c a : CpMethod) : Prop := a.isPrivate = false ∧ W.CanOverride c a

/-- The methods that 5.4.6 selects for the resolved method `m` and a receiver class: the method of
the nearest class on the way up to the class of `m` that declares an overriding one. -/
inductive Selects (m : CpMethod) : ClassRef → CpMethod → Prop where
  | resolved : Selects m ⟨m.cls, 0⟩ m
  | overridden {c p : ClassRef} {x e : CpMethod} : W.superOf c = some p → Selects m p e →
      x ∈ W.methodsOf c → W.Overrides x m → Selects m c x
  | inherited {c p : ClassRef} {x : CpMethod} : W.superOf c = some p → Selects m p x →
      (∀ y ∈ W.methodsOf c, ¬ W.Overrides y m) → Selects m c x

/-- The ways in which linking `c` treats the slot of the selected method `e` otherwise than 5.4.5
requires for the resolved method `m`. -/
inductive SlotMistake (m : CpMethod) (c : ClassRef) (e : CpMethod) : Prop where
  /-- A private method loses its slot. -/
  | lostPrivate {x : CpMethod} : W.replacement c e = some x → m.isPrivate → SlotMistake m c e
  /-- A static method takes the slot. -/
  | takenByStatic {x : CpMethod} : W.replacement c e = some x → x.isStatic → SlotMistake m c e
  /-- A signature polymorphic method of another descriptor takes the slot. -/
  | takenByPolymorphic {x : CpMethod} : W.replacement c e = some x → x.descriptor ≠ m.descriptor →
      SlotMistake m c e
  /-- A method that cannot override the package-private `m` takes its slot. -/
  | takenInPackage {x : CpMethod} : W.replacement c e = some x → m.isPublic = false →
      m.isProtected = false → ¬ W.CanOverride x m → SlotMistake m c e
  /-- A method that overrides `m` does not take the slot. -/
  | missed {y : CpMethod} : W.replacement c e = none → y ∈ W.methodsOf c → W.Overrides y m →
      SlotMistake m c e

variable {W}

theorem CanOverride.candidate {c a : CpMethod} (h : W.CanOverride c a) : OverrideCandidate c a := by
  cases h <;> assumption

theorem Selects.candidate {m : CpMethod} {c : ClassRef} (h : W.Selects m c x) :
    x.name = m.name ∧ x.descriptor = m.descriptor ∧ W.Subclass c ⟨x.cls, 0⟩ := by
  induction h with
  | resolved => exact ⟨rfl, rfl, .refl⟩
  | overridden _ _ hx ho =>
    obtain ⟨-, -, hn, hd, -⟩ := ho.2.candidate
    rw [methodsOf_cls hx]
    exact ⟨hn, hd, .refl⟩
  | inherited hp _ _ ih => exact ⟨ih.1, ih.2.1, .head hp ih.2.2⟩

theorem Selects.subclass {m : CpMethod} {c : ClassRef} (h : W.Selects m c x) :
    W.Subclass c ⟨m.cls, 0⟩ := by
  induction h with
  | resolved => exact .refl
  | overridden hp _ _ _ ih => exact .head hp ih
  | inherited hp _ _ ih => exact .head hp ih

variable {c p : ClassRef}

theorem Subclass.base_le (h : W.Subclass c p) (hc : c.dims = 0) : p.base ≤ c.base ∧ p.dims = 0 := by
  induction h with
  | refl => exact ⟨le_rfl, hc⟩
  | tail _ hp ih =>
    have hlt := W.supers_base_lt (superOf_mem_supers hp) ih.2
    exact ⟨by omega, superOf_dims hp⟩

theorem not_subclass_of_superOf (hp : W.superOf c = some p) : ¬ W.Subclass p c := by
  intro h
  obtain ⟨hle, h0⟩ := h.base_le (superOf_dims hp)
  have hlt := W.supers_base_lt (superOf_mem_supers hp) h0
  omega

theorem Selects.not_mem_methodsOf {m : CpMethod} (h : W.Selects m p x)
    (hp : W.superOf c = some p) : x ∉ W.methodsOf c := by
  intro hx
  have hsub := h.candidate.2.2
  rw [← methodsOf_cls hx] at hsub
  exact not_subclass_of_superOf hp hsub

theorem Selects.cases_super {m : CpMethod} (h : W.Selects m c x)
    (hp : W.superOf c = some p) (hsub : W.Subclass p ⟨m.cls, 0⟩) :
    x ∈ W.methodsOf c ∧ W.Overrides x m ∨
      W.Selects m p x ∧ ∀ y ∈ W.methodsOf c, ¬ W.Overrides y m := by
  cases h with
  | resolved => exact absurd hsub (not_subclass_of_superOf hp)
  | overridden _ _ hx ho => exact .inl ⟨hx, ho⟩
  | inherited hq hsel hn =>
    cases hq.symm.trans hp
    exact .inr ⟨hsel, hn⟩

theorem Selects.cls_unique {m : CpMethod} {c : ClassRef} (hx : W.Selects m c x)
    (hy : W.Selects m c y) : x.cls = y.cls := by
  induction hx generalizing y with
  | resolved =>
    generalize hc : (⟨m.cls, 0⟩ : ClassRef) = c at hy
    cases hy with
    | resolved => rfl
    | overridden hp he _ _
    | inherited hp he _ => exact absurd (hc ▸ he.subclass) (not_subclass_of_superOf hp)
  | overridden hp he hx ho ih =>
    rcases hy.cases_super hp he.subclass with ⟨hy, -⟩ | ⟨-, hn⟩
    · have hc := (methodsOf_cls hx).symm.trans (methodsOf_cls hy)
      simpa using hc
    · exact absurd ho (hn _ hx)
  | inherited hp he hn ih =>
    rcases hy.cases_super hp he.subclass with ⟨hy, ho⟩ | ⟨hy, -⟩
    · exact absurd ho (hn _ hy)
    · exact ih hy

theorem Selects.replacement_congr {m : CpMethod} (hx : W.Selects m p x)
    (hy : W.Selects m p y) : W.replacement c x = W.replacement c y := by
  obtain ⟨hxn, hxd, -⟩ := hx.candidate
  obtain ⟨hyn, hyd, -⟩ := hy.candidate
  have hcls := hx.cls_unique hy
  unfold replacement methodOverrides
  rw [hxn, hxd, hyn, hyd, hcls]

theorem replacement_spec {c : ClassRef} (h : W.replacement c e = some x) :
    x ∈ W.methodsOf c ∧ x.name = e.name ∧ x.isPrivate = false := by
  refine ⟨replacement_mem h, ?_, ?_⟩
  · obtain ⟨hd, -⟩ := Option.filter_eq_some_iff.mp h
    have hmatch := find?_some hd
    simp only [CpMethod.candidateMatches, decide_eq_true_eq] at hmatch
    exact hmatch.1
  · obtain ⟨-, ho⟩ := Option.filter_eq_some_iff.mp h
    by_contra hx
    simp [methodOverrides, hx] at ho

theorem overrides_of_not_mistake {m : CpMethod} {c : ClassRef}
    (hm : m.isStatic = false) (hname : e.name = m.name) (hr : W.replacement c e = some x)
    (h : ¬ W.SlotMistake m c e) : W.Overrides x m := by
  obtain ⟨-, hxn, hxp⟩ := replacement_spec hr
  have hpriv : m.isPrivate = false := by
    by_contra hp
    exact h (.lostPrivate hr (by simpa using hp))
  have hstatic : x.isStatic = false := by
    by_contra hs
    exact h (.takenByStatic hr (by simpa using hs))
  have hdesc : x.descriptor = m.descriptor := by
    by_contra hd
    exact h (.takenByPolymorphic hr hd)
  refine ⟨hpriv, ?_⟩
  by_cases hvis : m.isPublic ∨ m.isProtected
  · exact .visible ⟨hstatic, hm, hxn.trans hname, hdesc, hxp⟩ hvis
  · by_contra hc
    exact h (.takenInPackage hr (by simp_all) (by simp_all) hc)

/-- The slot of `m` holds, in every class below the class of `m`, the method that 5.4.6 selects
if and only if no class below it mistakes the slot. -/
theorem vtable_selects_iff (m : CpMethod) (hm : m ∈ W.methods m.cls) (hv : m.isVirtual) :
    (∀ c, W.Subclass c ⟨m.cls, 0⟩ →
      ∃ x, (W.tables c).vtable[W.vtableIndex m]? = some x ∧ W.Selects m c x) ↔
    ∀ c p e, W.superOf c = some p → W.Selects m p e → ¬ W.SlotMistake m c e := by
  have hstatic : m.isStatic = false := by
    simp only [CpMethod.isVirtual, Bool.and_eq_true, Bool.not_eq_true'] at hv
    exact hv.2
  constructor
  · intro h c p e hp he hmistake
    obtain ⟨x, hx, hsx⟩ := h p he.subclass
    obtain ⟨y, hy, hsy⟩ := h c (.head hp he.subclass)
    have hy' := tables_slot hp hx
    rw [hy, some.injEq, ← he.replacement_congr hsx] at hy'
    have hover : ∀ z, W.replacement c e = some z → W.Overrides z m := by
      intro z hz
      obtain rfl : y = z := by simpa [hz] using hy'
      rcases hsy.cases_super hp he.subclass with ⟨-, ho⟩ | ⟨hsel, -⟩
      · exact ho
      · exact absurd (replacement_mem hz) (hsel.not_mem_methodsOf hp)
    cases hmistake with
    | lostPrivate hz hpriv => simp [(hover _ hz).1] at hpriv
    | takenByStatic hz hs => simp [(hover _ hz).2.candidate.1] at hs
    | takenByPolymorphic hz hd => exact hd (hover _ hz).2.candidate.2.2.2.1
    | takenInPackage hz _ _ hc => exact hc (hover _ hz).2
    | missed hz hmem ho =>
      obtain rfl : y = x := by simpa [hz] using hy'
      rcases hsy.cases_super hp he.subclass with ⟨hy, -⟩ | ⟨-, hn⟩
      · exact hsx.not_mem_methodsOf hp hy
      · exact hn _ hmem ho
  · intro h c hc
    induction hc using Relation.ReflTransGen.head_induction_on with
    | refl =>
      have hm' : m ∈ W.methodsOf ⟨m.cls, 0⟩ := by simpa [methodsOf] using hm
      exact ⟨m, declared_vtable_index hm' hv, .resolved⟩
    | @head c p hp hsub ih =>
      obtain ⟨e, he, hsel⟩ := ih
      have hok := h c p e hp hsel
      refine ⟨_, tables_slot hp he, ?_⟩
      cases hr : W.replacement c e with
      | some x =>
        exact .overridden hp hsel (replacement_mem hr)
          (overrides_of_not_mistake hstatic hsel.candidate.1 hr hok)
      | none =>
        refine .inherited hp hsel fun y hy ho => ?_
        exact hok (.missed hr hy ho)

end ClassWorld

/-- `class A { m() }` and `class B extends A { public m() }` below the class `0`; the method of
`A` is public or private. -/
def redeclaredMethod (cls : ℕ) (isPublic : Bool) : CpMethod :=
  ⟨cls, 0, "m", "()V", isPublic, false, !isPublic, false, false, false⟩

def redeclaration (isPublic : Bool) : ClassWorld where
  isPrimitive _ := false
  superClass
    | 1 => some 0
    | 2 => some 1
    | _ => none
  interfaces _ := []
  hasClinit _ := false
  verifies _ := true
  object := 0
  cloneable := 0
  serializable := 0
  super_lt := by
    intro c p h
    split at h <;> cases h <;> decide
  interfaces_lt := Hierarchy.lt_of_mem_nil
  className
    | 0 => "java/lang/Object"
    | 1 => "A"
    | _ => "B"
  loader _ := 0
  isInterface _ := false
  methods
    | 1 => [redeclaredMethod 1 isPublic]
    | 2 => [redeclaredMethod 2 true]
    | _ => []
  my_class := by
    intro c m h
    split at h <;> simp_all [redeclaredMethod]
  my_index := by
    intro c i m h
    split at h <;> rcases i with _ | i <;> simp_all [redeclaredMethod]
    all_goals rw [← h]

theorem redeclaration_below {b : Bool} {c p : ClassRef}
    (hp : (redeclaration b).superOf c = some p) (hsub : (redeclaration b).Subclass p ⟨1, 0⟩) :
    c = ⟨2, 0⟩ := by
  obtain ⟨hle, -⟩ := hsub.base_le (ClassWorld.superOf_dims hp)
  obtain ⟨n, d⟩ := c
  unfold ClassWorld.superOf at hp
  split at hp
  · rename_i h0
    obtain rfl : d = 0 := h0
    obtain ⟨q, hq, rfl⟩ := Option.map_eq_some_iff.mp hp
    match n, hq with
    | 1, hq =>
      obtain rfl : 0 = q := some.inj hq
      simp at hle
    | 2, _ => rfl
  · cases hp
    simp [redeclaration] at hle

theorem vtable_selects_iff_redeclaration :
    (redeclaration true).Selects (redeclaredMethod 1 true) ⟨2, 0⟩ (redeclaredMethod 2 true) := by
  have hall : ∀ c p e, (redeclaration true).superOf c = some p →
      (redeclaration true).Selects (redeclaredMethod 1 true) p e →
      ¬ (redeclaration true).SlotMistake (redeclaredMethod 1 true) c e := by
    intro c p e hp hsel hmistake
    obtain rfl := redeclaration_below hp hsel.subclass
    obtain rfl : ⟨1, 0⟩ = p := some.inj hp
    have hr : (redeclaration true).replacement ⟨2, 0⟩ e = some (redeclaredMethod 2 true) := by
      rw [hsel.replacement_congr .resolved]
      decide
    cases hmistake with
    | lostPrivate _ h => exact absurd h (by decide)
    | takenByStatic hx h =>
      cases hr.symm.trans hx
      exact absurd h (by decide)
    | takenByPolymorphic hx h =>
      cases hr.symm.trans hx
      exact absurd rfl h
    | takenInPackage _ h => exact absurd h (by decide)
    | missed hx => simp [hr] at hx
  obtain ⟨x, hx, hsel⟩ := ((redeclaration true).vtable_selects_iff (redeclaredMethod 1 true)
    (by decide) (by decide)).mpr hall ⟨2, 0⟩ (.single rfl)
  obtain rfl : redeclaredMethod 2 true = x := some.inj hx
  exact hsel

/-- A public method takes the slot of the private method of its superclass. -/
theorem vtable_loses_private_method :
    redeclaredMethod 1 false ∈ (redeclaration false).methods 1 ∧
      (redeclaredMethod 1 false).isVirtual ∧ (redeclaration false).Subclass ⟨2, 0⟩ ⟨1, 0⟩ ∧
      ¬ ∃ x, ((redeclaration false).tables ⟨2, 0⟩).vtable[
        (redeclaration false).vtableIndex (redeclaredMethod 1 false)]? = some x ∧
        (redeclaration false).Selects (redeclaredMethod 1 false) ⟨2, 0⟩ x := by
  refine ⟨by decide, by decide, .single rfl, ?_⟩
  rintro ⟨x, hx, hsel⟩
  obtain rfl : redeclaredMethod 2 true = x := some.inj hx
  rcases hsel.cases_super rfl .refl with ⟨-, ho⟩ | ⟨hsel, -⟩
  · exact absurd ho.1 (by decide)
  · exact hsel.not_mem_methodsOf (c := ⟨2, 0⟩) rfl (by decide)

end TraceJvm
