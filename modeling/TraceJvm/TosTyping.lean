import TraceJvm.HandlerForms
import TraceJvm.Unwidening

/-! Completed handlers against the verifier: the stack depth that a handler leaves, and the variant
that it passes control to, are those for the kinds that the verifier computes. -/
namespace TraceJvm

open List

/-- The kinds of the operand stack before and after a rewritten instruction that the verifier
admits. -/
inductive StackTyped (insn : Instruction) : List TypeKind → List TypeKind → Prop where
  | load {c : TypeKind} {st : List TypeKind} (hk : loadKind insn.kind = some c) :
      StackTyped insn st (c :: st)
  | store {c : TypeKind} {st : List TypeKind} (hk : storeKind insn.kind = some c) :
      StackTyped insn (c :: st) st
  | iinc {st : List TypeKind} (hk : insn.kind = .iinc) : StackTyped insn st st
  | shuffle {kind : InsnKind} {st st' : List TypeKind} (hform : ShuffleForm kind insn.kind st st') :
      StackTyped insn st st'
  | other {pops st : List TypeKind} {push : TypeKind} (heff : jvmsEffect insn = some (pops, push))
      (hv : .void ∉ pops) : StackTyped insn (pops ++ st) (pushKind push st)

theorem Typed.stackTyped {maxLocals curr : ℕ} {swizzle : List ℕ} {insn insn' : Instruction}
    {f g : KindFrame} (h : Typed maxLocals insn f g)
    (hr : Rewritten maxLocals swizzle curr insn f.stack insn') :
    StackTyped insn' f.stack g.stack := by
  cases h with
  | load hl _ _ =>
    obtain ⟨_, _, _, -, rfl⟩ := hr.access_inv (.inl (by simp [hl]))
    exact .load hl
  | store _ hs _ hst =>
    obtain ⟨_, _, _, -, rfl⟩ := hr.access_inv (.inr (by simp [hs]))
    rw [hst]
    exact .store hs
  | iinc hk _ _ =>
    obtain ⟨_, _, _, _, -, rfl⟩ := hr.iinc_inv hk
    exact .iinc hk
  | shuffle hk hkinds =>
    obtain ⟨_, _, _, _, hform, rfl⟩ := hr.shuffle_inv hk hkinds
    exact .shuffle hform
  | other hl hs hi hk _ heff _ hst hv =>
    obtain ⟨_, _, _, rfl⟩ := hr.other_inv hl hs hi hk
    rw [hst]
    exact .other heff hv

theorem ShuffleForm.isShuffle {kind kind' : InsnKind} {st st' : List TypeKind}
    (h : ShuffleForm kind kind' st st') : kind'.isShuffle := by
  cases h <;> rfl

theorem forms_eq_singleton {insn : Instruction}
    (h : (loadKind insn.kind).isSome ∨ (storeKind insn.kind).isSome ∨ insn.kind = .iinc ∨
      insn.kind.isShuffle) : forms insn = [insn.kind] := by
  obtain ⟨kind⟩ := insn
  rcases h with h | h | h | h <;> dsimp only at h
  · cases kind <;> first | (cases h; done) | rfl
  · cases kind <;> first | (cases h; done) | rfl
  · subst h
    rfl
  · cases kind <;> first | (cases h; done) | rfl

theorem handlerBody_load {t : TosKind} {insn : Instruction} {c : TypeKind}
    (h : loadKind insn.kind = some c) : handlerBody t insn = some .load := by
  obtain ⟨kind⟩ := insn
  cases kind <;> first | (cases h; done) | rfl

theorem handlerBody_store {t : TosKind} {insn : Instruction} {c : TypeKind}
    (h : storeKind insn.kind = some c) : handlerBody t insn = some .store := by
  obtain ⟨kind⟩ := insn
  cases kind <;> first | (cases h; done) | rfl

section RunBody

variable {maxLocals target : ℕ} {depths : List ℕ} {insn : Instruction} {k : InsnKind}
  {operands : List Value} {v : Value} {s : TosFrame} {b : HandlerBody} {r : Passed}
  {st st' : List TypeKind}

theorem tos_of_isNarrow {c : TypeKind} (h : c.isNarrow) : c.tos = .int ∨ c.tos = .float := by
  cases c <;> first | (cases h; done) | exact .inl rfl | exact .inr rfl

theorem runBody_shuffle {kind : InsnKind} (hform : ShuffleForm kind insn.kind st st')
    (hb : handlerBody s.tos insn = some b)
    (hr : s.runBody maxLocals depths insn operands v target b = some r) (hsp : s.sp = st.length) :
    r.sp = st'.length ∧ ∀ t x, r.passing = .typed t x → topTos st' = topTos st ∧
      (insn.kind = .dup ∧ t = s.tos ∨
        insn.kind = .dup2 ∧ t = .int ∧ (topTos st = .int ∨ topTos st = .float)) := by
  obtain ⟨ikind⟩ := insn
  dsimp only at hform
  cases hform
  case dup2 a b st ha hb' =>
    cases hb
    simp only [TosFrame.runBody] at hr
    split at hr
    · cases hr
      simp [hsp, topTos, tos_of_isNarrow ha]
    · cases hr
  all_goals
    cases hb
    simp only [TosFrame.runBody, shuffleMemory] at hr
    split at hr
    · cases hr
      simp [hsp, topTos]
    · cases hr

theorem runBody_load {c : TypeKind} (hk : loadKind insn.kind = some c)
    (hr : s.runBody maxLocals depths insn operands v target .load = some r) :
    r.sp = s.sp + 1 ∧ ∃ x, r.passing = .typed c.tos x := by
  simp only [TosFrame.runBody, hk] at hr
  split at hr
  · rename_i c' x hc _
    cases hc
    split at hr
    · cases hr
      exact ⟨rfl, x, rfl⟩
    · cases hr
  · cases hr

theorem runBody_store (hr : s.runBody maxLocals depths insn operands v target .store = some r) :
    r.sp = s.sp - 1 ∧ r.passing = .polymorphic := by
  simp only [TosFrame.runBody] at hr
  split at hr
  · cases hr
    exact ⟨rfl, rfl⟩
  · cases hr

theorem runBody_increment
    (hr : s.runBody maxLocals depths insn operands v target .increment = some r) :
    r.sp = s.sp ∧ r.passing = .typed s.tos s.register := by
  simp only [TosFrame.runBody] at hr
  obtain ⟨x, -, hr⟩ := Option.bind_eq_some_iff.mp hr
  split at hr
  · cases hr
    exact ⟨rfl, rfl⟩
  · cases hr

/-- The other handlers leave as many cells as the verifier expects. Only `nop` and `goto` pass on
the variant that they run in. -/
theorem runBody_other {pops : List TypeKind} {push : TypeKind}
    (hfit : BodyFits s.tos insn.kind b pops push)
    (hr : s.runBody maxLocals depths insn operands v target b = some r)
    (hsp : s.sp = (pops ++ st).length)
    (hdepth : depths[target]? = some (pushKind push st).length) :
    r.sp = (pushKind push st).length ∧ ∀ t x, r.passing = .typed t x →
      (push ≠ .void ∧ t = push.tos ∨
        (insn.kind = .nop ∨ insn.kind = .goto) ∧ pops = [] ∧ push = .void ∧ t = s.tos ∨
        s.tos = .float ∧ pops = [.double] ∧ push = .double) := by
  rw [length_append] at hsp
  cases hfit with
  | keep hk =>
    simp only [TosFrame.runBody] at hr
    split at hr
    · cases hr
      refine ⟨by simpa [pushKind] using hsp, fun t x hp => ?_⟩
      cases hp
      exact .inr (.inl ⟨hk, rfl, rfl, rfl⟩)
    · cases hr
  | push hc =>
    simp only [TosFrame.runBody] at hr
    split at hr
    · cases hr
      refine ⟨by simp [pushKind, hc, hsp], fun t x hp => ?_⟩
      cases hp
      exact .inl ⟨hc, rfl⟩
    · cases hr
  | compute hn hc =>
    simp only [TosFrame.runBody] at hr
    split at hr
    · cases hr
      refine ⟨?_, fun t x hp => ?_⟩
      · simp only [pushKind, if_neg hc, length_cons]
        omega
      · cases hp
        exact .inl ⟨hc, rfl⟩
    · cases hr
  | floatSqrt ht =>
    simp only [TosFrame.runBody] at hr
    split at hr
    · cases hr
      refine ⟨by simp [pushKind] at hsp ⊢; omega, fun t x hp => ?_⟩
      exact .inr (.inr ⟨ht, rfl, rfl⟩)
    · cases hr
  | consume hn =>
    simp only [TosFrame.runBody] at hr
    split at hr
    · cases hr
      refine ⟨?_, fun t x hp => by cases hp⟩
      simp only [pushKind, if_true]
      omega
    · cases hr
  | call hn =>
    simp only [TosFrame.runBody] at hr
    split at hr
    · rw [hdepth] at hr
      cases hr
      exact ⟨rfl, fun t x hp => by cases hp⟩
    · cases hr
  | pop hk =>
    simp only [TosFrame.runBody, hk, shuffleMemory] at hr
    split at hr
    · cases hr
      refine ⟨by simp [pushKind] at hsp ⊢; omega, fun t x hp => by cases hp⟩
    · cases hr

theorem cells_length (memory : ℕ → Value) (n : ℕ) : (cells memory n).length = n := by
  induction n with
  | zero => rfl
  | succ n ih => rw [cells, length_cons, ih]

theorem TosFrame.stack_length (hpos : s.tos ≠ .void → 0 < s.sp) : s.stack.length = s.sp := by
  unfold TosFrame.stack
  split
  · exact cells_length _ _
  · rename_i hne
    have := hpos hne
    rw [length_cons, cells_length]
    omega

/-- A variant with a value in the register gets control only where there is a value. -/
theorem runBody_positive {t : TosKind} {x : Value} (hpos : s.tos ≠ .void → 0 < s.sp)
    (hr : s.runBody maxLocals depths insn operands v target b = some r)
    (hp : r.passing = .typed t x) (hne : t ≠ .void) : 0 < r.sp := by
  cases b with
  | keep =>
    simp only [TosFrame.runBody] at hr
    split at hr
    · cases hr
      cases hp
      exact hpos hne
    · cases hr
  | load =>
    simp only [TosFrame.runBody] at hr
    split at hr
    · split at hr
      · cases hr
        exact Nat.succ_pos _
      · cases hr
    · cases hr
  | store =>
    rw [(runBody_store hr).2] at hp
    cases hp
  | increment =>
    obtain ⟨hsp, hpass⟩ := runBody_increment hr
    rw [hpass] at hp
    cases hp
    rw [hsp]
    exact hpos hne
  | push c | dup | dup2 =>
    simp only [TosFrame.runBody] at hr
    split at hr
    · cases hr
      exact Nat.succ_pos _
    · cases hr
  | compute n c =>
    simp only [TosFrame.runBody] at hr
    split at hr
    · rename_i hcond
      cases hr
      have hle := hcond.2.1.length_le
      rw [TosFrame.stack_length hpos] at hle
      dsimp only
      omega
    · cases hr
  | consume n =>
    simp only [TosFrame.runBody] at hr
    split at hr
    · cases hr
      cases hp
    · cases hr
  | call n c | shuffle =>
    simp only [TosFrame.runBody] at hr
    split at hr
    · obtain ⟨d, -, rfl⟩ := Option.map_eq_some_iff.mp hr
      cases hp
    · cases hr

/-- The kinds with which `JMP_VOID` is used. -/
def afterJmpVoid : InsnKind → Bool
  | .getstaticB | .getstaticC | .getstaticS | .getstaticI | .getstaticJ | .getstaticF | .getstaticD
  | .getstaticZ | .getstaticL | .new | .newResolved | .invokestaticResolved | .invokesigpoly
  | .invokeinterface | .invokevirtual | .invokespecialResolved | .pop | .invokevtableMonomorphic
  | .invokevtablePolymorphic | .invokeitableMonomorphic | .invokeitablePolymorphic
  | .invokecallsite => true
  | _ => false

theorem inVoidTable_of_afterJmpVoid (h : afterJmpVoid k) : inVoidTable k := by
  cases k <;> first | rfl | cases h

/-- A handler leaves the stack depth of the analysis, and where it chooses the next variant itself,
the one for the stack it leaves. -/
theorem runBody_typed (hty : StackTyped insn st st') (hk : k ∈ forms insn)
    (hb : handlerBody s.tos { insn with kind := k } = some b)
    (hr : s.runBody maxLocals depths { insn with kind := k } operands v target b = some r)
    (hsp : s.sp = st.length) (hdepth : depths[target]? = some st'.length) :
    r.sp = st'.length ∧ ∀ t x, (s.tos = topTos st ∨ s.tos = .void ∧ afterJmpVoid k) →
      ¬ (k = .dup2 ∧ s.tos = .float) → r.passing = .typed t x → t = topTos st' := by
  cases hty with
  | load hl =>
    rw [forms_eq_singleton (.inl (by simp [hl]))] at hk
    obtain rfl := mem_singleton.mp hk
    cases (handlerBody_load hl).symm.trans hb
    obtain ⟨hsp', y, hy⟩ := runBody_load hl hr
    refine ⟨by simp [hsp', hsp], fun t x _ _ hp => ?_⟩
    rw [hp] at hy
    cases hy
    rfl
  | store hl =>
    rw [forms_eq_singleton (.inr (.inl (by simp [hl])))] at hk
    obtain rfl := mem_singleton.mp hk
    cases (handlerBody_store hl).symm.trans hb
    refine ⟨by simp [(runBody_store hr).1, hsp], fun t x _ _ hp => ?_⟩
    rw [(runBody_store hr).2] at hp
    cases hp
  | iinc hi =>
    rw [forms_eq_singleton (.inr (.inr (.inl hi)))] at hk
    obtain rfl := mem_singleton.mp hk
    simp only [handlerBody, hi] at hb
    cases hb
    refine ⟨by rw [(runBody_increment hr).1, hsp], fun t x htos _ hp => ?_⟩
    rw [(runBody_increment hr).2] at hp
    cases hp
    rcases htos with htos | ⟨-, hjmp⟩
    · exact htos
    · simp [hi, afterJmpVoid] at hjmp
  | shuffle hform =>
    rw [forms_eq_singleton (.inr (.inr (.inr hform.isShuffle)))] at hk
    obtain rfl := mem_singleton.mp hk
    refine ⟨(runBody_shuffle hform hb hr hsp).1, fun t x htos hslip hp => ?_⟩
    obtain ⟨htop, ⟨hdup, rfl⟩ | ⟨hdup, rfl, htwo⟩⟩ := (runBody_shuffle hform hb hr hsp).2 t x hp
    · rcases htos with htos | ⟨-, hjmp⟩
      · rw [htop, htos]
      · simp [hdup, afterJmpVoid] at hjmp
    · rcases htos with htos | ⟨-, hjmp⟩
      · rcases htwo with hint | hfloat
        · rw [htop, hint]
        · exact absurd ⟨hdup, htos.trans hfloat⟩ hslip
      · simp [hdup, afterJmpVoid] at hjmp
  | @other pops st push heff hv =>
    obtain ⟨hsp', hpass⟩ := runBody_other (handlerBody_fits hk heff hb) hr hsp hdepth
    refine ⟨hsp', fun t x htos _ hp => ?_⟩
    rcases hpass t x hp with ⟨hc, rfl⟩ | ⟨hkind, rfl, rfl, rfl⟩ | ⟨hfloat, rfl, rfl⟩
    · simp [pushKind, hc, topTos]
    · rcases htos with htos | ⟨-, hjmp⟩
      · exact htos
      · dsimp only at hkind
        rcases hkind with rfl | rfl <;> cases hjmp
    · rcases htos with htos | ⟨hvoid, -⟩
      · rw [hfloat] at htos
        cases htos
      · rw [hfloat] at hvoid
        cases hvoid

end RunBody

end TraceJvm
