import TraceJvm.AnalysisInference
import TraceJvm.TosMachine

/-! The forms that an instruction takes while the program runs. Every form has a handler in the
table for the operand on top, and it takes and leaves what the verifier knows of the instruction. -/
namespace TraceJvm

open List Option

def topTos : List TypeKind → TosKind
  | [] => .void
  | k :: _ => k.tos

variable {t : TosKind}

theorem tosType_eq_topTos {st : List TypeKind} (h : tosType st = .ok t) :
    t = topTos st ∧ st.head? ≠ some .void := by
  cases st with
  | nil => cases h; exact ⟨rfl, by simp⟩
  | cons k st => cases k <;> first | (cases h; done) | (cases h; exact ⟨rfl, by simp⟩)

theorem KindFrame.Assignable.topTos_eq {g d : KindFrame} (h : g.Assignable d)
    (hd : tosType d.stack = .ok t) : t = topTos g.stack := by
  obtain ⟨rfl, hvoid⟩ := tosType_eq_topTos hd
  have hs := h.stack
  generalize g.stack = gs at hs
  generalize d.stack = ds at hs hvoid
  cases hs with
  | nil => rfl
  | cons hab _ =>
    rcases hab with rfl | rfl
    · rfl
    · simp at hvoid

theorem topTos_ne_void {st : List TypeKind} (h : topTos st ≠ .void) : 0 < st.length := by
  cases st with
  | nil => exact absurd rfl h
  | cons _ _ => simp

/-- The kinds that an instruction of the analysed code can have while the program runs. -/
def forms (insn : Instruction) : List InsnKind :=
  if insn.kind = .invokevirtual ∨ insn.kind = .invokeinterface then
    [.invokevirtual, .invokeinterface, .invokesigpoly, .invokespecialResolved,
      .invokevtableMonomorphic, .invokevtablePolymorphic, .invokeitableMonomorphic,
      .invokeitablePolymorphic]
  else insn.kind :: rewrites insn

theorem kind_mem_forms (insn : Instruction) : insn.kind ∈ forms insn := by
  unfold forms
  split
  · rename_i h
    rcases h with h | h <;> simp [h]
  · simp

variable {k : InsnKind}

theorem rewrites_staticKind {b : Bool} {t : TypeKind}
    (h : getstaticPutstaticResolvedKind b t = some k) (insn : Instruction) :
    rewrites { insn with kind := k } = [] := by
  cases t <;> cases b <;> cases h <;> rfl

theorem rewrites_fieldKind {b : Bool} {t : TypeKind}
    (h : getfieldPutfieldResolvedKind b t = some k) (insn : Instruction) :
    rewrites { insn with kind := k } = [] := by
  cases t <;> cases b <;> cases h <;> rfl

theorem isIntrinsic_of_mem {d : MethodDescriptor} (h : k ∈ intrinsicKinds d) : isIntrinsic k := by
  unfold intrinsicKinds at h
  simp only [mem_append] at h
  rcases h with (((h | h) | h) | h) | h <;> split at h <;> simp at h
  all_goals rcases h with rfl | rfl | rfl | rfl <;> rfl

theorem rewrites_intrinsic (h : isIntrinsic k) (insn : Instruction) :
    rewrites { insn with kind := k } = [] := by
  cases k <;> first | rfl | cases h

variable {insn : Instruction}

theorem rewrites_rewrites {k k' : InsnKind}
    (h : insn.kind ≠ .invokevirtual ∧ insn.kind ≠ .invokeinterface) (hk : k ∈ rewrites insn)
    (hk' : k' ∈ rewrites { insn with kind := k }) : k' ∈ rewrites insn := by
  have hnone : rewrites { insn with kind := k } = [] → k' ∈ rewrites insn := by
    intro hnil
    rw [hnil] at hk'
    cases hk'
  obtain ⟨kind⟩ := insn
  cases kind
  case getstatic | putstatic => exact hnone (rewrites_staticKind (mem_toList.mp hk) _)
  case getfield | putfield =>
    rcases mem_cons.mp hk with rfl | hk
    · exact hk'
    · exact hnone (rewrites_fieldKind (mem_toList.mp hk) _)
  case new =>
    rcases mem_cons.mp hk with rfl | hk
    · exact hk'
    · obtain rfl := mem_singleton.mp hk
      exact hnone rfl
  case invokestatic =>
    rcases mem_cons.mp hk with rfl | hk
    · exact hnone rfl
    · exact hnone (rewrites_intrinsic (isIntrinsic_of_mem hk) _)
  case invokespecial =>
    rcases mem_cons.mp hk with rfl | hk
    · exact hnone rfl
    · split at hk
      · obtain rfl := mem_singleton.mp hk
        exact hnone rfl
      · cases hk
  case invokevirtual => exact absurd rfl h.1
  case invokeinterface => exact absurd rfl h.2
  all_goals first
    | (cases hk; done)
    | (obtain rfl := mem_singleton.mp hk; exact hnone rfl)

theorem rewrites_mem_forms {k k' : InsnKind} (hk : k ∈ forms insn)
    (hk' : k' ∈ rewrites { insn with kind := k }) : k' ∈ forms insn := by
  unfold forms at hk ⊢
  split at hk
  · rename_i h
    rw [if_pos h]
    simp only [mem_cons, not_mem_nil, or_false] at hk
    rcases hk with rfl | rfl | rfl | rfl | rfl | rfl | rfl | rfl <;>
      simp only [rewrites, mem_cons, not_mem_nil, or_false] at hk' <;> simp [hk'] <;>
      rcases hk' with rfl | rfl | rfl | rfl <;> simp
  · rename_i h
    rw [if_neg h]
    rcases mem_cons.mp hk with rfl | hk
    · exact mem_cons_of_mem _ hk'
    · exact mem_cons_of_mem _ (rewrites_rewrites (not_or.mp h) hk hk')

/-- The resumption of a suspended resolution does not leave them either, except for a `putstatic`
that another activation has resolved in the meantime. -/
theorem resumedKind_mem_forms {orig : Instruction} {k k' : InsnKind} (hk : k ∈ forms orig)
    (hput : orig.kind ≠ .putstatic)
    (hk' : resumedKind orig.kind { orig with kind := k } = some k') : k' ∈ forms orig := by
  obtain ⟨kind⟩ := orig
  cases kind
  case putstatic => exact absurd rfl hput
  case getstatic =>
    have hne : k ≠ .putstatic := by
      rintro rfl
      rcases mem_cons.mp hk with h | h
      · cases h
      · have h := mem_toList.mp h
        dsimp only at h
        revert h
        generalize FieldDescriptor.reprKind _ = t
        cases t <;> simp [getstaticPutstaticResolvedKind]
    simp only [resumedKind, decide_eq_false hne] at hk'
    exact mem_cons_of_mem _ (mem_toList.mpr hk')
  case new | invokestatic =>
    cases hk'
    simp [forms, rewrites]
  all_goals cases hk'

structure CodeForms (orig code : List Instruction) : Prop where
  length : code.length = orig.length
  form : ∀ (i : ℕ) (o : Instruction), orig[i]? = some o →
    ∃ k ∈ forms o, code[i]? = some { o with kind := k }

theorem codeForms_self (code : List Instruction) : CodeForms code code :=
  ⟨rfl, fun _ o ho => ⟨o.kind, kind_mem_forms o, ho⟩⟩

theorem CodeForms.orig {orig code : List Instruction} (h : CodeForms orig code) {i : ℕ}
    (hi : code[i]? = some insn) :
    ∃ o, orig[i]? = some o ∧ insn.kind ∈ forms o ∧ insn = { o with kind := insn.kind } := by
  have hlt := (List.getElem?_eq_some_iff.mp hi).1
  rw [h.length] at hlt
  obtain ⟨k, hk, hcode⟩ := h.form i _ (getElem?_eq_getElem hlt)
  cases hi.symm.trans hcode
  exact ⟨_, getElem?_eq_getElem hlt, hk, rfl⟩

variable {o : Instruction}

theorem CodeForms.setKind {orig code : List Instruction} (h : CodeForms orig code) {i : ℕ}
    (ho : orig[i]? = some o) (hk : k ∈ forms o) :
    CodeForms orig (setKind code i k) := by
  refine ⟨by rw [TraceJvm.setKind, length_modify, h.length], fun j o' ho' => ?_⟩
  obtain ⟨k', hk', hcode⟩ := h.form j o' ho'
  unfold TraceJvm.setKind
  rcases eq_or_ne i j with rfl | hne
  · cases ho.symm.trans ho'
    exact ⟨k, hk, by simp [hcode]⟩
  · exact ⟨k', hk', by simp [hcode, hne]⟩

/-- A handler and the effect that the verifier knows of its instruction. In the float variant the
square root passes on a `float`; a call of `Object.<init>` is executed as a `pop`. -/
inductive BodyFits (t : TosKind) (k : InsnKind) :
    HandlerBody → List TypeKind → TypeKind → Prop where
  | keep (hk : k = .nop ∨ k = .goto) : BodyFits t k .keep [] .void
  | push {c : TypeKind} (hc : c ≠ .void) : BodyFits t k (.push c) [] c
  | compute {n : ℕ} {pops : List TypeKind} {c : TypeKind} (hn : n = pops.length) (hc : c ≠ .void) :
      BodyFits t k (.compute n c) pops c
  | floatSqrt (ht : t = .float) : BodyFits t k (.compute 1 .float) [.double] .double
  | consume {n : ℕ} {pops : List TypeKind} (hn : n = pops.length) :
      BodyFits t k (.consume n) pops .void
  | call {n : ℕ} {pops : List TypeKind} {c : TypeKind} (hn : n = pops.length) :
      BodyFits t k (.call n c) pops c
  | pop (hk : k = .pop) : BodyFits t k .shuffle [.reference] .void

theorem jvmsEffect_cases {e : List TypeKind × TypeKind} (h : jvmsEffect insn = some e) :
    insn.kind = .putfield ∧ e = ([insn.field.reprKind, .reference], .void) ∨
      insn.kind = .putstatic ∧ e = ([insn.field.reprKind], .void) ∨
      insn.kind ≠ .jsr ∧ insn.kind ≠ .ret ∧ stackEffect insn = some e := by
  unfold jvmsEffect at h
  split at h
  · cases h
  rename_i hj
  split at h
  · exact .inl ⟨‹_›, (some.inj h).symm⟩
  split at h
  · exact .inr (.inl ⟨‹_›, (some.inj h).symm⟩)
  · exact .inr (.inr ⟨(not_or.mp hj).1, (not_or.mp hj).2, h⟩)

variable {c : TypeKind} {b : HandlerBody}

theorem staticBody_get (h : getstaticPutstaticResolvedKind false c = some k)
    (hc : c.representable = c)
    (hb : handlerBody t { insn with kind := k } = some b) : BodyFits t k b [] c := by
  cases c <;> first | (cases h; done) | (cases hc; done) | (cases h; cases hb; exact .push (by simp))

theorem reprKind_representable (d : FieldDescriptor) : d.reprKind.representable = d.reprKind := by
  unfold FieldDescriptor.reprKind
  split
  · rfl
  · cases d.baseKind <;> rfl


theorem fieldBody_get (h : getfieldPutfieldResolvedKind false c = some k)
    (hc : c.representable = c)
    (hb : handlerBody t { insn with kind := k } = some b) : BodyFits t k b [.reference] c := by
  cases c <;> first
    | (cases h; done)
    | (cases hc; done)
    | (cases h; cases hb; exact .compute rfl (by simp))

theorem staticBody_put (h : getstaticPutstaticResolvedKind true c = some k)
    (hb : handlerBody t { insn with kind := k } = some b) : BodyFits t k b [c] .void := by
  cases c <;> first | (cases h; done) | (cases h; cases hb; exact .consume rfl)

theorem fieldBody_put (h : getfieldPutfieldResolvedKind true c = some k)
    (hb : handlerBody t { insn with kind := k } = some b) : BodyFits t k b [c, .reference] .void := by
  cases c <;> first | (cases h; done) | (cases h; cases hb; exact .consume rfl)

theorem intrinsicBody (h : k ∈ intrinsicKinds insn.method)
    (hb : handlerBody t { insn with kind := k } = some b) :
    BodyFits t k b (insn.method.args.map FieldDescriptor.reprKind).reverse
      insn.method.returnType.reprKind := by
  unfold intrinsicKinds at h
  simp only [mem_append] at h
  rcases h with (((h | h) | h) | h) | h
  · split at h
    · rename_i hd
      rw [hd.1, hd.2]
      simp only [mem_cons, not_mem_nil, or_false] at h
      rcases h with rfl | rfl | rfl | rfl
      · cases hb
        by_cases ht : t = .float
        · simp only [ht, if_true]
          exact .floatSqrt rfl
        · simp only [ht, if_false]
          exact .compute rfl (by decide)
      all_goals (cases hb; exact .compute rfl (by decide))
    · cases h
  iterate 3
    · split at h
      · rename_i hd
        rw [hd.1, hd.2]
        obtain rfl := mem_singleton.mp h
        cases hb
        exact .compute rfl (by decide)
      · cases h
  · split at h
    · obtain rfl := mem_singleton.mp h
      cases hb
      exact .call (by simp)
    · cases h

/-- A handler takes and leaves what the verifier knows of its instruction, whatever form the
instruction has been rewritten to. -/
theorem handlerBody_fits {pops : List TypeKind} {push : TypeKind} (hk : k ∈ forms insn)
    (heff : jvmsEffect insn = some (pops, push))
    (hb : handlerBody t { insn with kind := k } = some b) : BodyFits t k b pops push := by
  obtain ⟨hkind, he⟩ | ⟨hkind, he⟩ | ⟨hjsr, hret, heff⟩ := jvmsEffect_cases heff
  · cases he
    simp only [forms, rewrites, hkind] at hk
    rcases mem_cons.mp hk with rfl | hk
    · cases hb
    rcases mem_cons.mp hk with rfl | hk
    · cases hb
    · exact fieldBody_put (mem_toList.mp hk) hb
  · cases he
    simp only [forms, rewrites, hkind] at hk
    rcases mem_cons.mp hk with rfl | hk
    · cases hb
    · exact staticBody_put (mem_toList.mp hk) hb
  obtain ⟨kind⟩ := insn
  cases kind
  case getstatic =>
    cases heff
    rcases mem_cons.mp hk with rfl | hk
    · cases hb
    · exact staticBody_get (mem_toList.mp hk) (reprKind_representable _) hb
  case getfield =>
    cases heff
    rcases mem_cons.mp hk with rfl | hk
    · cases hb
    rcases mem_cons.mp hk with rfl | hk
    · cases hb
    · exact fieldBody_get (mem_toList.mp hk) (reprKind_representable _) hb
  case new =>
    cases heff
    rcases mem_cons.mp hk with rfl | hk
    · cases hb
    rcases mem_cons.mp hk with rfl | hk
    · cases hb
    obtain rfl := mem_singleton.mp hk
    cases hb
    exact .push (by decide)
  case anewarray | checkcast | instanceof =>
    cases heff
    rcases mem_cons.mp hk with rfl | hk
    · cases hb
    obtain rfl := mem_singleton.mp hk
    cases hb
    exact .compute rfl (by decide)
  case invokestatic =>
    cases heff
    rcases mem_cons.mp hk with rfl | hk
    · cases hb
    rcases mem_cons.mp hk with rfl | hk
    · cases hb
      exact .call (by simp)
    · exact intrinsicBody hk hb
  case invokespecial =>
    cases heff
    rcases mem_cons.mp hk with rfl | hk
    · cases hb
    rcases mem_cons.mp hk with rfl | hk
    · cases hb
      exact .call (by simp)
    split at hk
    · rename_i hd
      obtain rfl := mem_singleton.mp hk
      cases hb
      dsimp only at hd ⊢
      rw [hd.1, hd.2]
      exact .pop rfl
    · cases hk
  case invokevirtual | invokeinterface =>
    cases heff
    simp only [forms, true_or, or_true, if_true, mem_cons, not_mem_nil, or_false] at hk
    rcases hk with rfl | rfl | rfl | rfl | rfl | rfl | rfl | rfl
    all_goals first | (cases hb; done) | (cases hb; exact .call (by simp))
  case invokedynamic =>
    cases heff
    rcases mem_cons.mp hk with rfl | hk
    · cases hb
    obtain rfl := mem_singleton.mp hk
    cases hb
    exact .call (by simp)
  case jsr => exact absurd rfl hjsr
  case ret => exact absurd rfl hret
  case multianewarray =>
    cases heff
    obtain rfl := mem_singleton.mp hk
    cases hb
    exact .compute (by simp) (by decide)
  case nop =>
    cases heff
    obtain rfl := mem_singleton.mp hk
    cases hb
    exact .keep (.inl rfl)
  case goto =>
    cases heff
    obtain rfl := mem_singleton.mp hk
    cases hb
    exact .keep (.inr rfl)
  all_goals first
    | (cases heff; done)
    | (cases heff; obtain rfl := mem_singleton.mp hk; cases hb; done)
    | (cases heff; obtain rfl := mem_singleton.mp hk; cases hb; exact .compute rfl (by decide))
    | (cases heff; obtain rfl := mem_singleton.mp hk; cases hb; exact .push (by decide))
    | (cases heff; obtain rfl := mem_singleton.mp hk; cases hb; exact .consume rfl)

theorem tos_ne_void {k : TypeKind} (h : k ≠ .void) : k.tos ≠ .void := by
  cases k <;> first | exact absurd rfl h | simp [TypeKind.tos]

theorem hasHandler_of_inVoidTable (h : inVoidTable k) (t : TosKind) : hasHandler t k := by
  cases t <;> simp [hasHandler, h]

theorem inVoidTable_getstatic
    (h : getstaticPutstaticResolvedKind false c = some k) : inVoidTable k := by
  cases c <;> first | (cases h; done) | (cases h; rfl)

theorem hasHandler_intrinsic {d : MethodDescriptor} (h : k ∈ intrinsicKinds d)
    (ht : ∀ p rest, (d.args.map FieldDescriptor.reprKind).reverse = p :: rest → t = p.tos) :
    hasHandler t k := by
  unfold intrinsicKinds at h
  simp only [mem_append] at h
  rcases h with (((h | h) | h) | h) | h
  · split at h
    · rename_i hd
      obtain rfl := ht .double [] (by rw [hd.1]; rfl)
      simp only [mem_cons, not_mem_nil, or_false] at h
      rcases h with rfl | rfl | rfl | rfl <;> rfl
    · cases h
  · split at h
    · rename_i hd
      obtain rfl := ht .double [.double] (by rw [hd.1]; rfl)
      obtain rfl := mem_singleton.mp h
      rfl
    · cases h
  all_goals
    split at h
    · obtain rfl := mem_singleton.mp h
      exact hasHandler_of_inVoidTable rfl t
    · cases h

/-- The table for the operand on top has an entry for every form of the instruction. -/
theorem hasHandler_of_mem_forms {pops : List TypeKind} {push : TypeKind} (hk : k ∈ forms insn)
    (heff : jvmsEffect insn = some (pops, push))
    (hvoid : .void ∉ pops) (hdim : insn.kind = .multianewarray → insn.dimensions ≠ 0)
    (ht : ∀ p rest, pops = p :: rest → t = p.tos) : hasHandler t k := by
  obtain ⟨hkind, he⟩ | ⟨hkind, he⟩ | ⟨hjsr, hret, heff⟩ := jvmsEffect_cases heff
  iterate 2
    · cases he
      obtain rfl := ht _ _ rfl
      simp only [forms, rewrites, hkind] at hk
      have hc : insn.field.reprKind ≠ .void := fun h => hvoid (by simp [h])
      generalize insn.field.reprKind = c at hk hc
      cases c
      case void => exact absurd rfl hc
      all_goals
        simp [getfieldPutfieldResolvedKind, getstaticPutstaticResolvedKind] at hk
        rcases hk with rfl | rfl <;> rfl
  obtain ⟨kind⟩ := insn
  cases kind
  case getstatic =>
    cases heff
    rcases mem_cons.mp hk with rfl | hk
    · exact hasHandler_of_inVoidTable rfl t
    · exact hasHandler_of_inVoidTable (inVoidTable_getstatic (mem_toList.mp hk)) t
  case getfield =>
    cases heff
    obtain rfl := ht _ _ rfl
    simp only [forms, rewrites] at hk
    generalize FieldDescriptor.reprKind _ = c at hk
    cases c <;> simp [getfieldPutfieldResolvedKind] at hk
    all_goals rcases hk with rfl | rfl 
    all_goals rfl
  case new =>
    simp only [forms, rewrites] at hk
    simp at hk
    rcases hk with rfl | rfl <;> exact hasHandler_of_inVoidTable rfl t
  case anewarray | checkcast | instanceof =>
    cases heff
    obtain rfl := ht _ _ rfl
    rcases mem_cons.mp hk with rfl | hk
    · rfl
    obtain rfl := mem_singleton.mp hk
    rfl
  case invokestatic =>
    cases heff
    rcases mem_cons.mp hk with rfl | hk
    · exact hasHandler_of_inVoidTable rfl t
    rcases mem_cons.mp hk with rfl | hk
    · exact hasHandler_of_inVoidTable rfl t
    · exact hasHandler_intrinsic hk ht
  case invokespecial =>
    cases heff
    have hne : t ≠ .void := by
      rcases hp : (_ ++ [_] : List TypeKind) with _ | ⟨p, rest⟩
      · simp at hp
      · rw [ht p rest hp]
        exact tos_ne_void fun h => hvoid (by simp [hp, h])
    rcases mem_cons.mp hk with rfl | hk
    · cases t <;> first | rfl | exact absurd rfl hne
    rcases mem_cons.mp hk with rfl | hk
    · exact hasHandler_of_inVoidTable rfl t
    split at hk
    · obtain rfl := mem_singleton.mp hk
      exact hasHandler_of_inVoidTable rfl t
    · cases hk
  case invokevirtual | invokeinterface =>
    simp only [forms, true_or, or_true, if_true, mem_cons, not_mem_nil, or_false] at hk
    rcases hk with rfl | rfl | rfl | rfl | rfl | rfl | rfl | rfl
    all_goals exact hasHandler_of_inVoidTable rfl t
  case invokedynamic =>
    rcases mem_cons.mp hk with rfl | hk
    · exact hasHandler_of_inVoidTable rfl t
    obtain rfl := mem_singleton.mp hk
    exact hasHandler_of_inVoidTable rfl t
  case jsr => exact absurd rfl hjsr
  case ret => exact absurd rfl hret
  case multianewarray =>
    cases heff
    obtain ⟨n, hn⟩ := Nat.exists_eq_succ_of_ne_zero (hdim rfl)
    obtain rfl := mem_singleton.mp hk
    dsimp only at hn
    obtain rfl := ht .int (List.replicate n .int) (by rw [hn]; rfl)
    rfl
  all_goals first
    | (cases heff; done)
    | (obtain rfl := mem_singleton.mp hk; exact hasHandler_of_inVoidTable rfl t)
    | (cases heff; obtain rfl := ht _ _ rfl; obtain rfl := mem_singleton.mp hk; rfl)

def InsnKind.fallsThrough (k : InsnKind) : Bool :=
  !k.terminates && !k.hasBranchDelta && k ≠ .tableswitch && k ≠ .lookupswitch

theorem successors_of_fallsThrough (h : insn.kind.fallsThrough) (pc : ℕ) :
    insn.successors pc = [pc + 1] := by
  simp only [InsnKind.fallsThrough, Bool.and_eq_true, Bool.not_eq_true', decide_eq_true_eq] at h
  simp [Instruction.successors, h.1.1.1, h.1.1.2, h.1.2, h.2]

theorem fallsThrough_staticKind {b : Bool}
    (h : getstaticPutstaticResolvedKind b c = some k) : k.fallsThrough := by
  cases c <;> cases b <;> cases h <;> rfl

theorem fallsThrough_fieldKind {b : Bool}
    (h : getfieldPutfieldResolvedKind b c = some k) : k.fallsThrough := by
  cases c <;> cases b <;> cases h <;> rfl

theorem fallsThrough_intrinsic (h : isIntrinsic k) : k.fallsThrough := by
  cases k <;> first | rfl | cases h

/-- Only instructions without branches are rewritten, to instructions without branches. -/
theorem fallsThrough_of_mem_rewrites (h : k ∈ rewrites insn) :
    insn.kind.fallsThrough ∧ k.fallsThrough := by
  obtain ⟨kind⟩ := insn
  cases kind
  case getstatic | putstatic => exact ⟨rfl, fallsThrough_staticKind (mem_toList.mp h)⟩
  case getfield | putfield =>
    rcases mem_cons.mp h with rfl | h
    · exact ⟨rfl, rfl⟩
    · exact ⟨rfl, fallsThrough_fieldKind (mem_toList.mp h)⟩
  case invokestatic =>
    rcases mem_cons.mp h with rfl | h
    · exact ⟨rfl, rfl⟩
    · exact ⟨rfl, fallsThrough_intrinsic (isIntrinsic_of_mem h)⟩
  case invokespecial =>
    rcases mem_cons.mp h with rfl | h
    · exact ⟨rfl, rfl⟩
    · split at h
      · obtain rfl := mem_singleton.mp h
        exact ⟨rfl, rfl⟩
      · cases h
  all_goals simp only [rewrites, mem_cons, not_mem_nil, or_false] at h
  all_goals rcases h with rfl | rfl | rfl | rfl <;> exact ⟨rfl, rfl⟩

theorem eq_or_fallsThrough_of_mem_forms (hk : k ∈ forms o) :
    k = o.kind ∨ o.kind.fallsThrough ∧ k.fallsThrough := by
  unfold forms at hk
  split at hk
  · rename_i h
    simp only [mem_cons, not_mem_nil, or_false] at hk
    refine .inr ⟨?_, ?_⟩
    · rcases h with h | h <;> rw [h] <;> rfl
    · rcases hk with rfl | rfl | rfl | rfl | rfl | rfl | rfl | rfl <;> rfl
  · rcases mem_cons.mp hk with rfl | hk
    · exact .inl rfl
    · exact .inr (fallsThrough_of_mem_rewrites hk)

theorem successors_form (hk : k ∈ forms o) (pc : ℕ) :
    ({ o with kind := k } : Instruction).successors pc = o.successors pc := by
  rcases eq_or_fallsThrough_of_mem_forms hk with rfl | ⟨ho, hk⟩
  · rfl
  · rw [successors_of_fallsThrough ho]
    exact @successors_of_fallsThrough { o with kind := k } hk pc

def awaitsClass : InsnKind → Bool
  | .getstatic | .putstatic | .new | .invokestatic => true
  | _ => false

theorem staticKind_not_awaitsClass {b : Bool}
    (h : getstaticPutstaticResolvedKind b c = some k) : awaitsClass k = false := by
  cases c <;> cases b <;> cases h <;> rfl

theorem fieldKind_not_awaitsClass {b : Bool}
    (h : getfieldPutfieldResolvedKind b c = some k) : awaitsClass k = false := by
  cases c <;> cases b <;> cases h <;> rfl

theorem intrinsic_not_awaitsClass (h : isIntrinsic k) : awaitsClass k = false := by
  cases k <;> first | rfl | cases h

/-- An instruction with such a kind has it from the class file. -/
theorem kind_eq_of_awaitsClass (hk : k ∈ forms o) (h : awaitsClass k) : o.kind = k := by
  have hfalse : ∀ {P : Prop}, awaitsClass k = false → P := by
    intro P hno
    rw [h] at hno
    cases hno
  obtain ⟨kind⟩ := o
  cases kind
  case getstatic | putstatic =>
    rcases mem_cons.mp hk with rfl | hk
    · rfl
    · exact hfalse (staticKind_not_awaitsClass (mem_toList.mp hk))
  case getfield | putfield =>
    rcases mem_cons.mp hk with rfl | hk
    · rfl
    rcases mem_cons.mp hk with rfl | hk
    · rfl
    · exact hfalse (fieldKind_not_awaitsClass (mem_toList.mp hk))
  case invokestatic =>
    rcases mem_cons.mp hk with rfl | hk
    · rfl
    rcases mem_cons.mp hk with rfl | hk
    · exact hfalse rfl
    · exact hfalse (intrinsic_not_awaitsClass (isIntrinsic_of_mem hk))
  case invokespecial =>
    rcases mem_cons.mp hk with rfl | hk
    · rfl
    rcases mem_cons.mp hk with rfl | hk
    · exact hfalse rfl
    · split at hk
      · obtain rfl := mem_singleton.mp hk
        exact hfalse rfl
      · cases hk
  case invokevirtual | invokeinterface =>
    simp only [forms, true_or, or_true, if_true, mem_cons, not_mem_nil, or_false] at hk
    rcases hk with rfl | rfl | rfl | rfl | rfl | rfl | rfl | rfl <;> cases h
  all_goals
    rcases mem_cons.mp hk with rfl | hk
    · rfl
  all_goals simp only [rewrites, mem_cons, not_mem_nil, or_false] at hk
  all_goals rcases hk with rfl | rfl <;> first | rfl | exact hfalse rfl

end TraceJvm
