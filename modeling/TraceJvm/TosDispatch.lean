import TraceJvm.TosTyping

/-! Every handler passes control to a handler: the variant is the one that the analyser has recorded
for the next instruction, or the handler that has just rewritten its instruction goes on with all
values in the frame. -/
namespace TraceJvm

open Transition Option List

/-- The stack depth, the code and the state of suspension of an activation of verified code. -/
structure Settled (T : ℕ → Option KindFrame) (A : CodeAnalysis) (s : TosFrame) : Prop where
  forms : CodeForms A.code s.code
  depth : ∃ f, T s.pc = some f ∧ s.sp = f.stack.length
  positive : s.tos ≠ .void → 0 < s.sp
  pending : ∀ p, s.pending = some p → s.tos = .void ∧ canSuspend p ∧
    ∃ o, A.code[s.pc]? = some o ∧ p ∈ TraceJvm.forms o

/-- The variant that has control is the recorded one, or the instruction has just been rewritten. -/
def Dispatched (s : TosFrame) : Prop :=
  s.pending = none → ∃ insn, s.code[s.pc]? = some insn ∧
    (s.tos = insn.tosBefore ∨ s.tos = .void ∧ afterJmpVoid insn.kind)

section Steps

variable {m : CodeMethod} {T : ℕ → Option KindFrame} {A : CodeAnalysis} {swizzle : List ℕ}
  {s s' : TosFrame} {target : ℕ} {r : Passed} {d g : KindFrame}
  (ht : Typing m T)
  (hA : ∀ i insn f, m.code[i]? = some insn → T i = some f →
    ∃ insn' r, AnalysedAt m swizzle A i insn f insn' r)

theorem AnalysedAt.depth {i : ℕ} {insn insn' : Instruction} {f : KindFrame} {r : StackSummary}
    (h : AnalysedAt m swizzle A i insn f insn' r) :
    (m.tosEnv A).depths[i]? = some f.stack.length := by
  simp [CodeMethod.tosEnv, h.state, h.stack]

include ht hA in
theorem analysed_of_typed {i : ℕ} {f : KindFrame} (hf : T i = some f) :
    ∃ insn insn' r, m.code[i]? = some insn ∧ AnalysedAt m swizzle A i insn f insn' r := by
  obtain ⟨insn, hi⟩ := ht.inside i f hf
  obtain ⟨insn', r, h⟩ := hA i insn f hi hf
  exact ⟨insn, insn', r, hi, h⟩

include ht hA in
theorem depths_of_typed {i : ℕ} {f : KindFrame} (hf : T i = some f) :
    (m.tosEnv A).depths[i]? = some f.stack.length := by
  obtain ⟨_, _, _, -, h⟩ := analysed_of_typed ht hA hf
  exact h.depth

include ht hA in
theorem settled_pass (hforms : CodeForms A.code s.code) (hd : T target = some d)
    (hsp : r.sp = d.stack.length)
    (hpos : ∀ t x, r.passing = .typed t x → t ≠ .void → 0 < r.sp)
    (hpass : s.pass target r = some s') : Settled T A s' := by
  unfold TosFrame.pass at hpass
  split at hpass
  · rename_i t x hp
    cases hpass
    exact ⟨hforms, ⟨d, hd, hsp⟩, hpos t x hp, nofun⟩
  · obtain ⟨i, hi, rfl⟩ := map_eq_some_iff.mp hpass
    refine ⟨hforms, ⟨d, hd, hsp⟩, fun hne => ?_, nofun⟩
    obtain ⟨_, insn', _, -, hana⟩ := analysed_of_typed ht hA hd
    obtain ⟨k, -, hcode⟩ := hforms.form target insn' hana.output
    cases hi.symm.trans hcode
    have htop : insn'.tosBefore = topTos d.stack := (tosType_eq_topTos hana.before).1
    dsimp only at hne ⊢
    rw [htop] at hne
    rw [hsp]
    exact topTos_ne_void hne

include ht hA in
theorem dispatched_pass (hforms : CodeForms A.code s.code) (hd : T target = some d)
    (hassign : g.Assignable d) (hpass : s.pass target r = some s')
    (htos : ∀ t x, r.passing = .typed t x → t = topTos g.stack) :
    ∃ insn, s'.code[s'.pc]? = some insn ∧ s'.tos = insn.tosBefore := by
  obtain ⟨_, insn', _, -, hana⟩ := analysed_of_typed ht hA hd
  obtain ⟨k, -, hcode⟩ := hforms.form target insn' hana.output
  unfold TosFrame.pass at hpass
  split at hpass
  · rename_i t x hp
    cases hpass
    refine ⟨_, hcode, ?_⟩
    dsimp only
    rw [htos t x hp, hassign.topTos_eq hana.before]
  · obtain ⟨i, hi, rfl⟩ := map_eq_some_iff.mp hpass
    exact ⟨i, hi, rfl⟩

/-- The step finishes the suspended resolution of a `putstatic`, for this or for another
activation. -/
def resumesPutstatic (env : TosEnv) (s : TosFrame) : TosEvent → Prop
  | .resume _ _ => s.pending = some .putstatic
  | .rewriteResumed i => ∃ o, env.code[i]? = some o ∧ o.kind = .putstatic
  | _ => False

/-- The step is a `dup2` with a `float` on top of the stack. -/
def dup2OfFloat (s : TosFrame) : TosEvent → Prop
  | .step (.proceed _ _ _) => ∃ insn, s.code[s.pc]? = some insn ∧ insn.kind = .dup2 ∧ s.tos = .float
  | _ => False

structure Standing (m : CodeMethod) (T : ℕ → Option KindFrame) (A : CodeAnalysis)
    (swizzle : List ℕ) (s : TosFrame) (f : KindFrame) (insn o : Instruction) (k : InsnKind) :
    Prop where
  code : m.code[s.pc]? = some insn
  frame : T s.pc = some f
  depth : s.sp = f.stack.length
  analysed : ∃ r, AnalysedAt m swizzle A s.pc insn f o r
  form : k ∈ TraceJvm.forms o
  current : s.code[s.pc]? = some { o with kind := k }

include ht hA in
theorem Settled.standing (h : Settled T A s) : ∃ f insn o k, Standing m T A swizzle s f insn o k := by
  obtain ⟨f, hf, hsp⟩ := h.depth
  obtain ⟨insn, o, r, hi, hana⟩ := analysed_of_typed ht hA hf
  obtain ⟨k, hk, hcode⟩ := h.forms.form _ o hana.output
  exact ⟨f, insn, o, k, hi, hf, hsp, ⟨r, hana⟩, hk, hcode⟩

section Standing

variable {f : KindFrame} {insn o : Instruction} {k : InsnKind}

theorem Standing.output (h : Standing m T A swizzle s f insn o k) : A.code[s.pc]? = some o := by
  obtain ⟨r, hana⟩ := h.analysed
  exact hana.output

include ht in
theorem Standing.typed (h : Standing m T A swizzle s f insn o k) :
    ∃ g : KindFrame, StackTyped o f.stack g.stack ∧ ∀ t, t ∈ o.successors s.pc →
      ∃ d, T t = some d ∧ g.Assignable d := by
  obtain ⟨r, hana⟩ := h.analysed
  obtain ⟨g, hg, hbranch, hnext⟩ := ht.step _ insn f h.code h.frame
  have hty := typeStep_typed hg
  refine ⟨g, hty.stackTyped hana.rewritten, fun t hmem => ?_⟩
  rcases (hana.rewritten.mem_successors hty).mp hmem with hmem | ⟨hterm, rfl⟩
  · exact hbranch t hmem
  · exact hnext hterm

include ht in
theorem Standing.dimensions (h : Standing m T A swizzle s f insn o k)
    (hdim : ∀ insn ∈ m.code, insn.kind = .multianewarray → insn.dimensions ≠ 0)
    (hk : o.kind = .multianewarray) : o.dimensions ≠ 0 := by
  obtain ⟨r, hana⟩ := h.analysed
  have hinsn := hdim insn (mem_of_getElem? h.code)
  have hrew := id hana.rewritten
  cases hrew with
  | access _ _ => exact hinsn hk
  | iinc _ _ => exact hinsn hk
  | shuffle hsh _ =>
    obtain ⟨g, hg, -⟩ := ht.step _ insn f h.code h.frame
    obtain ⟨st, hst⟩ := (typeStep_typed hg).shuffleKinds_eq hsh
    have hshuffle := (hana.rewritten.shuffleForm hsh hst).isShuffle
    rw [hk] at hshuffle
    cases hshuffle
  | other _ _ _ _ _ => exact hinsn hk

include ht in
theorem Standing.next (h : Standing m T A swizzle s f insn o k) {p : InsnKind}
    (hp : p ∈ TraceJvm.forms o) (hsus : canSuspend p) : ∃ d, T (s.pc + 1) = some d := by
  have hfall : o.kind.fallsThrough := by
    rcases eq_or_fallsThrough_of_mem_forms hp with rfl | ⟨ho, -⟩
    · revert hsus
      cases o.kind <;> first | (intro hsus; rfl) | nofun
    · exact ho
  obtain ⟨g, -, hsucc⟩ := h.typed ht
  obtain ⟨d, hd, -⟩ := hsucc (s.pc + 1) (by rw [successors_of_fallsThrough hfall]; simp)
  exact ⟨d, hd⟩

end Standing

include ht hA in
theorem settled_enter {memory : ℕ → Value} {passing : Passing} (hforms : CodeForms A.code s.code)
    (hd : T target = some d)
    (hpass : s.enter (m.tosEnv A).depths target memory passing = some s')
    (hvoid : ∀ t x, passing = .typed t x → t = .void) : Settled T A s' := by
  rw [TosFrame.enter, depths_of_typed ht hA hd, bind_some] at hpass
  refine settled_pass ht hA hforms hd rfl (fun t x hp hne => ?_) hpass
  exact absurd (hvoid t x hp) hne

include ht hA in
/-- A step to `target` runs the handler of the present form, from the frame of the verifier to one
that is assignable to the frame there. -/
theorem Settled.proceeds {operands : List Value} {v : Value} (h : Settled T A s)
    (hstep : tosStep (m.tosEnv A) s (.step (.proceed operands v target)) = some s') :
    s.pending = none ∧ ∃ (cur : Instruction) (r : Passed) (g d : KindFrame),
      s.code[s.pc]? = some cur ∧ s.pass target r = some s' ∧
      T target = some d ∧ g.Assignable d ∧ r.sp = g.stack.length ∧
      (∀ t x, r.passing = .typed t x → t ≠ .void → 0 < r.sp) ∧
      ∀ t x, (s.tos = cur.tosBefore ∨ s.tos = .void ∧ afterJmpVoid cur.kind) →
        ¬ (cur.kind = .dup2 ∧ s.tos = .float) → r.passing = .typed t x → t = topTos g.stack := by
  obtain ⟨f, insn, o, k, hst⟩ := h.standing ht hA
  obtain ⟨rs, hana⟩ := hst.analysed
  simp only [tosStep] at hstep
  split at hstep
  · rename_i cur hpend hcur
    cases hst.current.symm.trans hcur
    split at hstep
    · rename_i hcond
      obtain ⟨b, hb, hstep⟩ := bind_eq_some_iff.mp hstep
      obtain ⟨r, hr, hpass⟩ := bind_eq_some_iff.mp hstep
      obtain ⟨g, hty, hsucc⟩ := hst.typed ht
      rw [successors_form hst.form] at hcond
      obtain ⟨d, hd, hassign⟩ := hsucc target hcond.2
      have hdepth := depths_of_typed ht hA hd
      rw [← hassign.stack.length_eq] at hdepth
      have htop : o.tosBefore = topTos f.stack := (tosType_eq_topTos hana.before).1
      obtain ⟨hsp, htos⟩ := runBody_typed hty hst.form hb hr hst.depth hdepth
      exact ⟨hpend, _, r, g, d, hcur, hpass, hd, hassign, hsp,
        fun t x hp hne => runBody_positive h.positive hr hp hne,
        fun t x hcur => htos t x (hcur.imp_left fun heq => heq.trans htop)⟩
    · cases hstep
  · cases hstep

include ht hA in
/-- Control goes on to the instruction `target` of the stack depth that is recorded for it. -/
theorem settled_proceed {operands : List Value} {v : Value} (h : Settled T A s)
    (hstep : tosStep (m.tosEnv A) s (.step (.proceed operands v target)) = some s') :
    Settled T A s' := by
  obtain ⟨-, _, r, g, d, -, hpass, hd, hassign, hsp, hpos, -⟩ := h.proceeds ht hA hstep
  exact settled_pass ht hA h.forms hd (hsp.trans hassign.stack.length_eq) hpos hpass

include ht hA in
theorem settled_caught {e : ExceptionEntry} {x : ℕ} (h : Settled T A s)
    (hstep : tosStep (m.tosEnv A) s (.step (.caught e x)) = some s') : Settled T A s' := by
  obtain ⟨f, hf, -⟩ := h.depth
  simp only [tosStep] at hstep
  split at hstep
  · rename_i hcond
    obtain ⟨d, hd, -⟩ := ht.handlers s.pc f hf e hcond.1 hcond.2.1
    exact settled_enter ht hA h.forms hd hstep nofun
  · cases hstep

theorem redispatch_typed {insn : Instruction} {k : InsnKind} {t : TosKind} {x : Value}
    (hhandler : hasHandler s.tos insn.kind) (hp : (s.redispatch insn k).passing = .typed t x) :
    t = .void ∨ t = .int ∧ s.tos = .int := by
  have hint : ∀ kind, (kind = .getfield ∨ kind = .checkcast ∨ kind = .instanceof ∨
      kind = .anewarray) → hasHandler s.tos kind → s.tos = .int := by
    intro kind hkind hhas
    cases hs : s.tos <;> rw [hs] at hhas <;> first
      | rfl
      | (rcases hkind with rfl | rfl | rfl | rfl <;> cases hhas)
  unfold TosFrame.redispatch at hp
  split at hp
  case h_7 =>
    dsimp only at hp
    split at hp
    · cases hp
    · cases hp
      exact .inl rfl
  case h_5 | h_6 => cases hp
  case h_8 =>
    cases hp
    exact .inl rfl
  all_goals
    rename_i hkind
    cases hp
    exact .inr ⟨rfl, hint _ (by simp [hkind]) hhandler⟩

theorem redispatch_sp (insn : Instruction) (k : InsnKind) : (s.redispatch insn k).sp = s.sp := by
  unfold TosFrame.redispatch
  split <;> rfl

include ht hA in
theorem settled_resolve {k' : InsnKind} (h : Settled T A s)
    (hstep : tosStep (m.tosEnv A) s (.resolve k') = some s') : Settled T A s' := by
  obtain ⟨f, insn, o, k, hst⟩ := h.standing ht hA
  simp only [tosStep] at hstep
  split at hstep
  · rename_i cur hpend hcur
    cases hst.current.symm.trans hcur
    split at hstep
    · rename_i hcond
      have hforms := h.forms.setKind hst.output (rewrites_mem_forms hst.form hcond.2)
      refine settled_pass ht hA hforms hst.frame ((redispatch_sp _ _).trans hst.depth) ?_ hstep
      intro t x hp hne
      obtain ⟨rfl, hint⟩ := (redispatch_typed hcond.1 hp).resolve_left hne
      rw [redispatch_sp]
      exact h.positive (by rw [hint]; nofun)
    · cases hstep
  · cases hstep

include ht hA in
theorem settled_suspend (h : Settled T A s)
    (hstep : tosStep (m.tosEnv A) s .suspend = some s') : Settled T A s' := by
  obtain ⟨f, insn, o, k, hst⟩ := h.standing ht hA
  simp only [tosStep] at hstep
  split at hstep
  · rename_i cur hpend hcur
    cases hst.current.symm.trans hcur
    split at hstep
    · rename_i hcond
      cases hstep
      refine ⟨h.forms, h.depth, fun hne => absurd rfl hne, fun p hp => ?_⟩
      cases hp
      exact ⟨rfl, hcond.2, o, hst.output, hst.form⟩
    · cases hstep
  · cases hstep

theorem resumedKind_form {o : Instruction} {k k' p : InsnKind} (hk : k ∈ TraceJvm.forms o)
    (hp : p ∈ TraceJvm.forms o) (hput : p ≠ .putstatic)
    (hk' : resumedKind p { o with kind := k } = some k') : k' ∈ TraceJvm.forms o := by
  have hawait : awaitsClass p := by
    revert hk'
    cases p <;> first | (intro _; rfl) | nofun
  obtain rfl := kind_eq_of_awaitsClass hp hawait
  exact resumedKind_mem_forms hk hput hk'

theorem resumedKind_afterJmpVoid {o : Instruction} {k k' p : InsnKind}
    (hk : k ∈ TraceJvm.forms o) (hp : p ∈ TraceJvm.forms o) (hput : p ≠ .putstatic)
    (hk' : resumedKind p { o with kind := k } = some k') : afterJmpVoid k' := by
  cases p
  case putstatic => exact absurd rfl hput
  case getstatic =>
    have hform := resumedKind_form hk hp hput hk'
    have hkind := kind_eq_of_awaitsClass hp rfl
    simp only [TraceJvm.forms, rewrites, hkind] at hform
    simp only [resumedKind] at hk'
    revert hk' hform
    generalize o.field.reprKind = c
    generalize decide (k = .putstatic) = b
    cases b <;> cases c <;> simp [getstaticPutstaticResolvedKind] <;>
      (intro hk'; subst hk'; simp [afterJmpVoid])
  case new | invokestatic =>
    cases hk'
    rfl
  all_goals cases hk'

include ht hA in
theorem settled_resume {v : Value} {failed : Bool} (h : Settled T A s)
    (hput : s.pending ≠ some .putstatic)
    (hstep : tosStep (m.tosEnv A) s (.resume v failed) = some s') : Settled T A s' := by
  obtain ⟨f, insn, o, k, hst⟩ := h.standing ht hA
  simp only [tosStep] at hstep
  split at hstep
  · rename_i p cur hpend hcur
    cases hst.current.symm.trans hcur
    obtain ⟨-, hsus, o', ho', hp⟩ := h.pending p hpend
    cases hst.output.symm.trans ho'
    obtain ⟨d, hd⟩ := hst.next ht hp hsus
    have hvoid : ∀ (t : TosKind) (x : Value), Passing.typed .void s.register = .typed t x →
        t = .void := by
      intro t x heq
      cases heq
      rfl
    unfold TosFrame.asyncResume at hstep
    split at hstep
    · exact settled_enter ht hA h.forms hd hstep nofun
    split at hstep
    · split at hstep
      · exact settled_enter ht hA h.forms hd hstep nofun
      split at hstep
      · exact settled_enter ht hA h.forms hd hstep nofun
      · cases hstep
    split at hstep
    · exact settled_enter ht hA h.forms hst.frame hstep hvoid
    · obtain ⟨k', hk', hstep⟩ := bind_eq_some_iff.mp hstep
      have hne : p ≠ .putstatic := fun heq => hput (heq ▸ hpend)
      have hforms := h.forms.setKind hst.output (resumedKind_form hst.form hp hne hk')
      exact settled_enter ht hA hforms hst.frame hstep hvoid
  · cases hstep

include ht hA in
/-- Every step keeps the stack depth and the forms of the code, unless it finishes the suspended
resolution of a `putstatic`. -/
theorem settled_step {a : TosEvent} (h : Settled T A s)
    (hok : ¬ resumesPutstatic (m.tosEnv A) s a)
    (hstep : tosStep (m.tosEnv A) s a = some s') : Settled T A s' := by
  obtain ⟨f, hf, hsp⟩ := h.depth
  cases a with
  | step e =>
    cases e with
    | proceed operands v target => exact settled_proceed ht hA h hstep
    | caught e x => exact settled_caught ht hA h hstep
  | resolve k => exact settled_resolve ht hA h hstep
  | suspend => exact settled_suspend ht hA h hstep
  | resume v failed => exact settled_resume ht hA h hok hstep
  | yield =>
    simp only [tosStep] at hstep
    split at hstep
    · split at hstep
      · exact settled_enter ht hA h.forms hf hstep nofun
      · cases hstep
    · cases hstep
  | pause =>
    simp only [tosStep] at hstep
    split at hstep
    · exact settled_enter ht hA h.forms hf hstep nofun
    · cases hstep
  | rewrite i k =>
    obtain ⟨cur, hcur, hstep⟩ := bind_eq_some_iff.mp hstep
    split at hstep
    · rename_i hcond
      cases hstep
      obtain ⟨o, ho, hform, heq⟩ := h.forms.orig hcur
      rw [heq] at hcond
      exact ⟨h.forms.setKind ho (rewrites_mem_forms hform hcond.1), ⟨f, hf, hsp⟩, h.positive,
        h.pending⟩
    · cases hstep
  | rewriteResumed i =>
    simp only [tosStep] at hstep
    split at hstep
    · rename_i o cur ho hcur
      split at hstep
      · obtain ⟨k, hk, rfl⟩ := map_eq_some_iff.mp hstep
        obtain ⟨o', ho', hform, heq⟩ := h.forms.orig hcur
        cases ho.symm.trans ho'
        have hput : o.kind ≠ .putstatic := fun hkind => hok ⟨o, ho, hkind⟩
        rw [heq] at hk
        exact ⟨h.forms.setKind ho' (resumedKind_mem_forms hform hput hk), ⟨f, hf, hsp⟩,
          h.positive, h.pending⟩
      · cases hstep
    · cases hstep
  | scribble i v =>
    simp only [tosStep] at hstep
    split at hstep
    · cases hstep
      exact { h with depth := ⟨f, hf, hsp⟩ }
    · cases hstep

def TosEvent.redispatches : TosEvent → Bool
  | .resolve _ | .resume _ _ => true
  | _ => false

def TosEvent.passesControl : TosEvent → Bool
  | .step _ | .resolve _ | .resume _ _ | .yield | .pause => true
  | _ => false

/-- The handler that gets control is the one recorded for the instruction, or the instruction has
just been rewritten and all values are in the frame. -/
def PassedOn (s s' : TosFrame) (a : TosEvent) : Prop :=
  ∃ insn, s'.code[s'.pc]? = some insn ∧ (s'.tos = insn.tosBefore ∨
    s'.tos = .void ∧ afterJmpVoid insn.kind ∧ s'.pc = s.pc ∧ a.redispatches)

include ht hA in
theorem passedOn_enter {memory : ℕ → Value} {a : TosEvent} (hforms : CodeForms A.code s.code)
    (hd : T target = some d)
    (hpass : s.enter (m.tosEnv A).depths target memory .polymorphic = some s') :
    PassedOn s s' a := by
  rw [TosFrame.enter, depths_of_typed ht hA hd, bind_some] at hpass
  obtain ⟨insn, hi, htos⟩ := dispatched_pass ht hA hforms hd d.assignable_self hpass nofun
  exact ⟨insn, hi, .inl htos⟩

theorem setKind_getElem {code : List Instruction} {i : ℕ} {insn : Instruction} (k : InsnKind)
    (h : code[i]? = some insn) : (setKind code i k)[i]? = some { insn with kind := k } := by
  simp [setKind, h]

include ht hA in
theorem passedOn_proceed {operands : List Value} {v : Value} (h : Settled T A s)
    (hdis : Dispatched s)
    (hslip : ∀ insn, s.code[s.pc]? = some insn → ¬ (insn.kind = .dup2 ∧ s.tos = .float))
    (hstep : tosStep (m.tosEnv A) s (.step (.proceed operands v target)) = some s') :
    PassedOn s s' (.step (.proceed operands v target)) := by
  obtain ⟨hpend, cur, r, g, d, hcur, hpass, hd, hassign, -, -, htos⟩ := h.proceeds ht hA hstep
  obtain ⟨cur', hcur', hdis⟩ := hdis hpend
  cases hcur.symm.trans hcur'
  obtain ⟨insn, hi, hpassed⟩ := dispatched_pass ht hA h.forms hd hassign hpass
    fun t x => htos t x hdis (hslip _ hcur)
  exact ⟨insn, hi, .inl hpassed⟩

/-- After `JMP_VOID` control is in a form that has a handler for it. -/
theorem redispatch_void {insn : Instruction} {k : InsnKind} {x : Value} (hk : k ∈ rewrites insn)
    (hp : (s.redispatch insn k).passing = .typed .void x) : afterJmpVoid k := by
  unfold TosFrame.redispatch at hp
  obtain ⟨kind⟩ := insn
  cases kind
  case getstatic =>
    have hk := mem_toList.mp hk
    dsimp only at hk
    generalize FieldDescriptor.reprKind _ = c at hk
    cases c <;> first | (cases hk; done) | (cases hk; rfl)
  case invokestatic =>
    rcases mem_cons.mp hk with rfl | hk
    · rfl
    · simp [isIntrinsic_of_mem hk] at hp
  case invokespecial =>
    rcases mem_cons.mp hk with rfl | hk
    · rfl
    · split at hk
      · obtain rfl := mem_singleton.mp hk
        rfl
      · cases hk
  case getfield | checkcast | instanceof | anewarray | putstatic | putfield => cases hp
  all_goals simp only [rewrites, mem_cons, not_mem_nil, or_false] at hk
  all_goals rcases hk with rfl | rfl | rfl | rfl <;> rfl

include ht hA in
theorem passedOn_resolve {k' : InsnKind} (h : Settled T A s) (hdis : Dispatched s)
    (hstep : tosStep (m.tosEnv A) s (.resolve k') = some s') :
    PassedOn s s' (.resolve k') := by
  obtain ⟨f, insn, o, k, hst⟩ := h.standing ht hA
  simp only [tosStep] at hstep
  split at hstep
  · rename_i cur hpend hcur
    cases hst.current.symm.trans hcur
    split at hstep
    · rename_i hcond
      have hcode := setKind_getElem k' hcur
      unfold TosFrame.pass at hstep
      split at hstep
      · rename_i t x hp
        cases hstep
        refine ⟨_, hcode, ?_⟩
        rcases redispatch_typed hcond.1 hp with rfl | ⟨rfl, hint⟩
        · exact .inr ⟨rfl, redispatch_void hcond.2 hp, rfl, rfl⟩
        · obtain ⟨cur, hcur', htos⟩ := hdis hpend
          cases hcur.symm.trans hcur'
          rcases htos with htos | ⟨hvoid, -⟩
          · exact .inl (hint.symm.trans htos)
          · rw [hint] at hvoid
            cases hvoid
      · obtain ⟨i, hi, rfl⟩ := map_eq_some_iff.mp hstep
        exact ⟨i, hi, .inl rfl⟩
    · cases hstep
  · cases hstep

include ht hA in
theorem passedOn_resume {v : Value} {failed : Bool} (h : Settled T A s)
    (hput : s.pending ≠ some .putstatic)
    (hstep : tosStep (m.tosEnv A) s (.resume v failed) = some s') :
    PassedOn s s' (.resume v failed) := by
  obtain ⟨f, insn, o, k, hst⟩ := h.standing ht hA
  simp only [tosStep] at hstep
  split at hstep
  · rename_i p cur hpend hcur
    cases hst.current.symm.trans hcur
    obtain ⟨-, hsus, o', ho', hp⟩ := h.pending p hpend
    cases hst.output.symm.trans ho'
    obtain ⟨d, hd⟩ := hst.next ht hp hsus
    have hdepth := depths_of_typed ht hA hst.frame
    unfold TosFrame.asyncResume at hstep
    split at hstep
    · exact passedOn_enter ht hA h.forms hd hstep
    split at hstep
    · split at hstep
      · exact passedOn_enter ht hA h.forms hd hstep
      split at hstep
      · exact passedOn_enter ht hA h.forms hd hstep
      · cases hstep
    split at hstep
    · rename_i hnew
      rw [TosFrame.enter, hdepth] at hstep
      cases hstep
      refine ⟨_, hcur, .inr ⟨rfl, ?_, rfl, rfl⟩⟩
      obtain rfl := hnew.1
      have hkind := kind_eq_of_awaitsClass hp rfl
      have hform := hst.form
      simp [TraceJvm.forms, rewrites, hkind] at hform
      rcases hform with rfl | rfl <;> rfl
    · obtain ⟨k', hk', hstep⟩ := bind_eq_some_iff.mp hstep
      rw [TosFrame.enter, hdepth] at hstep
      cases hstep
      refine ⟨_, setKind_getElem k' hcur, .inr ⟨rfl, ?_, rfl, rfl⟩⟩
      have hne : p ≠ .putstatic := fun heq => hput (heq ▸ hpend)
      exact resumedKind_afterJmpVoid hst.form hp hne hk'
  · cases hstep

include ht hA in
/-- Every step that passes control passes it to the recorded variant or to a rewritten instruction,
unless it finishes the suspended resolution of a `putstatic` or is a `dup2` of a `float`. -/
theorem passedOn_step {a : TosEvent} (h : Settled T A s) (hdis : Dispatched s)
    (hok : ¬ resumesPutstatic (m.tosEnv A) s a) (hslip : ¬ dup2OfFloat s a)
    (hstep : tosStep (m.tosEnv A) s a = some s') (hcontrol : a.passesControl) :
    PassedOn s s' a := by
  obtain ⟨f, hf, hsp⟩ := h.depth
  cases a with
  | step e =>
    cases e with
    | proceed operands v target =>
      exact passedOn_proceed ht hA h hdis (fun insn hi heq => hslip ⟨insn, hi, heq⟩) hstep
    | caught e x =>
      simp only [tosStep] at hstep
      split at hstep
      · rename_i hcond
        obtain ⟨d, hd, -⟩ := ht.handlers s.pc f hf e hcond.1 hcond.2.1
        exact passedOn_enter ht hA h.forms hd hstep
      · cases hstep
  | resolve k => exact passedOn_resolve ht hA h hdis hstep
  | suspend => cases hcontrol
  | resume v failed => exact passedOn_resume ht hA h hok hstep
  | yield =>
    simp only [tosStep] at hstep
    split at hstep
    · split at hstep
      · exact passedOn_enter ht hA h.forms hf hstep
      · cases hstep
    · cases hstep
  | pause =>
    simp only [tosStep] at hstep
    split at hstep
    · exact passedOn_enter ht hA h.forms hf hstep
    · cases hstep
  | rewrite i k => cases hcontrol
  | rewriteResumed i => cases hcontrol
  | scribble i v => cases hcontrol

theorem PassedOn.dispatched {a : TosEvent} (h : PassedOn s s' a) : Dispatched s' := by
  obtain ⟨insn, hi, htos⟩ := h
  exact fun _ => ⟨insn, hi, htos.imp_right fun hvoid => ⟨hvoid.1, hvoid.2.1⟩⟩

theorem Dispatched.setKind {i : ℕ} {insn : Instruction} {k : InsnKind} (h : Dispatched s)
    (hi : s.code[i]? = some insn) (hmay : s.mayRewrite i insn) :
    Dispatched { s with code := setKind s.code i k } := by
  intro hpend
  obtain ⟨cur, hcur, htos⟩ := h hpend
  rcases eq_or_ne i s.pc with rfl | hne
  · cases hi.symm.trans hcur
    exact ⟨_, setKind_getElem k hi, .inl (hmay rfl hpend)⟩
  · refine ⟨cur, ?_, htos⟩
    simp [TraceJvm.setKind, hne, hcur]

include ht hA in
theorem dispatched_step {a : TosEvent} (h : Settled T A s) (hdis : Dispatched s)
    (hok : ¬ resumesPutstatic (m.tosEnv A) s a) (hslip : ¬ dup2OfFloat s a)
    (hstep : tosStep (m.tosEnv A) s a = some s') : Dispatched s' := by
  by_cases hcontrol : a.passesControl
  · exact (passedOn_step ht hA h hdis hok hslip hstep hcontrol).dispatched
  cases a with
  | step _ | resolve _ | resume _ _ | yield | pause => exact absurd rfl hcontrol
  | suspend =>
    simp only [tosStep] at hstep
    split at hstep
    · split at hstep
      · cases hstep
        nofun
      · cases hstep
    · cases hstep
  | rewrite i k =>
    obtain ⟨cur, hcur, hstep⟩ := bind_eq_some_iff.mp hstep
    split at hstep
    · rename_i hcond
      cases hstep
      exact hdis.setKind hcur hcond.2
    · cases hstep
  | rewriteResumed i =>
    simp only [tosStep] at hstep
    split at hstep
    · rename_i o cur ho hcur
      split at hstep
      · rename_i hmay
        obtain ⟨k, -, rfl⟩ := map_eq_some_iff.mp hstep
        exact hdis.setKind hcur hmay
      · cases hstep
    · cases hstep
  | scribble i v =>
    simp only [tosStep] at hstep
    split at hstep
    · cases hstep
      exact hdis
    · cases hstep

theorem hasHandler_store {insn : Instruction} {c : TypeKind} (h : storeKind insn.kind = some c) :
    hasHandler c.tos insn.kind := by
  obtain ⟨kind⟩ := insn
  cases kind <;> first | (cases h; done) | (cases h; rfl)

theorem hasHandler_load {insn : Instruction} {c : TypeKind} (h : loadKind insn.kind = some c)
    (t : TosKind) : hasHandler t insn.kind := by
  obtain ⟨kind⟩ := insn
  cases kind <;> first | (cases h; done) | exact hasHandler_of_inVoidTable rfl t

theorem hasHandler_shuffle {kind kind' : InsnKind} {st st' : List TypeKind}
    (h : ShuffleForm kind kind' st st') : hasHandler (topTos st) kind' := by
  have hne : ∀ {t : TosKind} {k : InsnKind}, t ≠ .void → k.isShuffle → hasHandler t k := by
    intro t k ht hk
    cases t
    case void => exact absurd rfl ht
    all_goals cases k <;> first | rfl | cases hk
  refine hne ?_ h.isShuffle
  have hwide : ∀ {c : TypeKind}, c.isWide → c ≠ .void := by
    rintro c hc rfl
    cases hc
  cases h <;> apply tos_ne_void <;> first
    | exact (isNarrow_iff.mp ‹_›).2
    | exact hwide ‹_›

include ht hA in
/-- The instruction at a position has an entry in the table of the variant that has control. -/
theorem Settled.hasHandler (h : Settled T A s) (hdis : Dispatched s)
    (hdim : ∀ insn ∈ m.code, insn.kind = .multianewarray → insn.dimensions ≠ 0)
    (hpend : s.pending = none) :
    ∃ insn r, s.code[s.pc]? = some insn ∧ A.states[s.pc]? = some r ∧
      tosType r.stack = .ok insn.tosBefore ∧ TraceJvm.hasHandler s.tos insn.kind ∧
      (s.tos = insn.tosBefore ∨ s.tos = .void ∧ afterJmpVoid insn.kind) := by
  obtain ⟨f, insn, o, k, hst⟩ := h.standing ht hA
  obtain ⟨r, hana⟩ := hst.analysed
  obtain ⟨cur, hcur, htos⟩ := hdis hpend
  cases hst.current.symm.trans hcur
  have hbefore : tosType r.stack = .ok o.tosBefore := by rw [hana.stack, hana.before]
  refine ⟨_, r, hcur, hana.state, hbefore, ?_, htos⟩
  rcases htos with htos | ⟨hvoid, hjmp⟩
  · have htop : s.tos = topTos f.stack := htos.trans (tosType_eq_topTos hana.before).1
    rw [htop]
    obtain ⟨g, hty, -⟩ := hst.typed ht
    generalize f.stack = st at hty
    generalize g.stack = st' at hty
    cases hty with
    | load hl =>
      have hform := hst.form
      rw [forms_eq_singleton (.inl (by simp [hl]))] at hform
      obtain rfl := mem_singleton.mp hform
      exact hasHandler_load hl _
    | store hl =>
      have hform := hst.form
      rw [forms_eq_singleton (.inr (.inl (by simp [hl])))] at hform
      obtain rfl := mem_singleton.mp hform
      exact hasHandler_store hl
    | iinc hi =>
      have hform := hst.form
      rw [forms_eq_singleton (.inr (.inr (.inl hi)))] at hform
      obtain rfl := mem_singleton.mp hform
      dsimp only
      rw [hi]
      exact hasHandler_of_inVoidTable rfl _
    | shuffle hform' =>
      have hform := hst.form
      rw [forms_eq_singleton (.inr (.inr (.inr hform'.isShuffle)))] at hform
      obtain rfl := mem_singleton.mp hform
      exact hasHandler_shuffle hform'
    | other heff hv =>
      refine hasHandler_of_mem_forms hst.form heff hv ?_ ?_
      · exact hst.dimensions ht hdim
      · intro p rest hp
        rw [hp]
        rfl
  · rw [hvoid]
    exact inVoidTable_of_afterJmpVoid hjmp

theorem pass_pending (h : s.pass target r = some s') : s'.pending = none := by
  unfold TosFrame.pass at h
  split at h
  · cases h
    rfl
  · obtain ⟨i, -, rfl⟩ := map_eq_some_iff.mp h
    rfl

theorem enter_pending {depths : List ℕ} {memory : ℕ → Value} {passing : Passing}
    (h : s.enter depths target memory passing = some s') : s'.pending = none := by
  obtain ⟨d, -, hpass⟩ := bind_eq_some_iff.mp h
  exact pass_pending hpass

theorem asyncResume_pending {depths : List ℕ} {p : InsnKind} {insn : Instruction} {v : Value}
    {failed : Bool} (h : s.asyncResume depths p insn v failed = some s') : s'.pending = none := by
  unfold TosFrame.asyncResume at h
  split at h
  · exact enter_pending h
  split at h
  · split at h
    · exact enter_pending h
    split at h
    · exact enter_pending h
    · cases h
  split at h
  · exact enter_pending h
  · obtain ⟨k, -, h⟩ := bind_eq_some_iff.mp h
    exact enter_pending h

theorem pending_of_passesControl {env : TosEnv} {a : TosEvent} (h : tosStep env s a = some s')
    (ha : a.passesControl) : s'.pending = none := by
  cases a with
  | suspend | rewrite _ _ | rewriteResumed _ | scribble _ _ => cases ha
  | step e =>
    cases e with
    | proceed operands v target =>
      simp only [tosStep] at h
      split at h
      · split at h
        · obtain ⟨b, -, h⟩ := bind_eq_some_iff.mp h
          obtain ⟨r, -, h⟩ := bind_eq_some_iff.mp h
          exact pass_pending h
        · cases h
      · cases h
    | caught e x =>
      simp only [tosStep] at h
      split at h
      · exact enter_pending h
      · cases h
  | resolve k =>
    simp only [tosStep] at h
    split at h
    · split at h
      · exact pass_pending h
      · cases h
    · cases h
  | resume v failed =>
    simp only [tosStep] at h
    split at h
    · exact asyncResume_pending h
    · cases h
  | yield =>
    simp only [tosStep] at h
    split at h
    · split at h
      · exact enter_pending h
      · cases h
    · cases h
  | pause =>
    simp only [tosStep] at h
    split at h
    · exact enter_pending h
    · cases h

include ht hA in
theorem settled_entry (h : s.Entry (m.tosEnv A)) : Settled T A s ∧ Dispatched s := by
  obtain ⟨f, hf, -⟩ := ht.entry
  obtain ⟨insn, o, r, hi, hana⟩ := analysed_of_typed ht hA hf
  have hdepth : s.sp = f.stack.length := some.inj (h.depth.symm.trans hana.depth)
  have htos : s.tos = o.tosBefore := h.tos o hana.output
  refine ⟨⟨h.code ▸ codeForms_self _, ⟨f, h.pc ▸ hf, hdepth⟩, fun hne => ?_, ?_⟩, ?_⟩
  · rw [htos, (tosType_eq_topTos hana.before).1] at hne
    rw [hdepth]
    exact topTos_ne_void hne
  · rw [h.pending]
    nofun
  · intro _
    refine ⟨o, ?_, .inl htos⟩
    rw [h.pc, h.code]
    exact hana.output

end Steps

/-- The steps that a run is allowed to take: no activation finishes a suspended resolution of a
`putstatic`, and this one does not execute a `dup2` of a `float`. -/
def ProperDispatch (env : TosEnv) (s : TosFrame) (a : TosEvent) : Prop :=
  ¬ resumesPutstatic env s a ∧ ¬ dup2OfFloat s a

/-- The dispatch of an accepted method that the verifier admits is consistent. The handler that has
control is in the table of its variant, and every step that passes control passes it to the variant
recorded for the next instruction, or, with all values in the frame, back to the instruction that
the handler has just rewritten. -/
theorem dispatch_consistent {fuel : ℕ} {m : CodeMethod} {T : ℕ → Option KindFrame}
    {A : CodeAnalysis} {s₀ s : TosFrame} (hv : Verified m T)
    (hdim : ∀ insn ∈ m.code, insn.kind = .multianewarray → insn.dimensions ≠ 0)
    (h : analyzeMethodCode fuel m = some (.ok A)) (hentry : s₀.Entry (m.tosEnv A))
    (hrun : Runs (tosStep (m.tosEnv A)) (ProperDispatch (m.tosEnv A)) s₀ s) :
    (s.pending = none → ∃ insn r, s.code[s.pc]? = some insn ∧ A.states[s.pc]? = some r ∧
      tosType r.stack = .ok insn.tosBefore ∧ hasHandler s.tos insn.kind ∧
      (s.tos = insn.tosBefore ∨ s.tos = .void ∧ afterJmpVoid insn.kind)) ∧
    ∀ a s', ProperDispatch (m.tosEnv A) s a → tosStep (m.tosEnv A) s a = some s' →
      a.passesControl → ∃ insn, s'.code[s'.pc]? = some insn ∧ hasHandler s'.tos insn.kind ∧
        (s'.tos = insn.tosBefore ∨ s'.tos = .void ∧ s'.pc = s.pc ∧ a.redispatches) := by
  obtain ⟨swizzle, _, -, hA⟩ := hv.analysedAt h
  have ht := hv.typing
  have hinv := hrun.invariant (fun s => Settled T A s ∧ Dispatched s) (settled_entry ht hA hentry)
    fun _ _ _ hi hok hstep => ⟨settled_step ht hA hi.1 hok.1 hstep,
      dispatched_step ht hA hi.1 hi.2 hok.1 hok.2 hstep⟩
  refine ⟨hinv.1.hasHandler ht hA hinv.2 hdim, fun a s' hok hstep hcontrol => ?_⟩
  have hpassed := passedOn_step ht hA hinv.1 hinv.2 hok.1 hok.2 hstep hcontrol
  have hsettled := settled_step ht hA hinv.1 hok.1 hstep
  obtain ⟨insn, hi, htos⟩ := id hpassed
  have hpend : s'.pending = none := pending_of_passesControl hstep hcontrol
  obtain ⟨insn', _, hi', -, -, hhandler, -⟩ := hsettled.hasHandler ht hA hpassed.dispatched hdim hpend
  cases hi.symm.trans hi'
  exact ⟨insn, hi, hhandler, htos.imp_right fun hvoid => ⟨hvoid.1, hvoid.2.2⟩⟩

/-- `static int f()`, which returns the sum of 0 and a static field. -/
def staticSum : CodeMethod where
  maxStack := 2
  maxLocals := 0
  code := [{ kind := .iconst, originalPc := 0 },
    { kind := .getstatic, originalPc := 1, field := .ofKind .int }, { kind := .iadd, originalPc := 4 },
    { kind := .ireturn, originalPc := 5 }]
  exceptionTable := []
  lvt := []
  stackMapTable := none
  pc_zero := by simp
  pc_lt := by decide
  isStatic := true
  isCtor := false
  descriptor := ⟨[], .ofKind .int, by decide⟩
  missingSmt := false
  missing_eq := CodeMethod.noTable_eq

theorem staticSum_consistent : KindConsistent staticSum [staticSum.entryFrame] where
  boundaries := by
    intro d hd
    obtain rfl := mem_singleton.mp hd
    exact ⟨{ kind := .iconst, originalPc := 0 }, by decide, rfl⟩
  entry := by
    rintro f ⟨⟩
    exact ⟨.nil, fun s => .inr rfl⟩
  step := by
    intro i insn f hi hf
    match i with
    | 0 | 1 | 2 =>
      cases hi
      cases hf
      exact ⟨_, rfl, nofun, fun _ => ⟨by decide, nofun⟩⟩
    | 3 =>
      cases hi
      cases hf
      exact ⟨_, rfl, nofun, nofun⟩
    | i + 4 => simp [staticSum] at hi
  handlers := fun _ _ _ _ he => by cases he

theorem staticSum_verified : Verified staticSum (kindsAt 0 staticSum.code [staticSum.entryFrame]) :=
  .table rfl (.inr ⟨rfl, rfl⟩) rfl staticSum_consistent rfl

def staticSumAnalysis : CodeAnalysis :=
  match analyzeMethodCode 1 staticSum with
  | some (.ok A) => A
  | _ => ⟨[], [], []⟩

theorem staticSum_accepted : analyzeMethodCode 1 staticSum = some (.ok staticSumAnalysis) := rfl

def staticSumEntry : TosFrame :=
  ⟨0, .void, .int 0, 0, fun _ => .int 7, [], staticSumAnalysis.code, none⟩

theorem staticSumEntry_entry : staticSumEntry.Entry (staticSum.tosEnv staticSumAnalysis) where
  pc := rfl
  code := rfl
  pending := rfl
  depth := rfl
  tos insn hi := by
    cases hi
    rfl

theorem dispatch_consistent_staticSum :
    ∃ s, Runs (tosStep (staticSum.tosEnv staticSumAnalysis))
        (ProperDispatch (staticSum.tosEnv staticSumAnalysis)) staticSumEntry s ∧
      s.pc = 1 ∧ ∃ insn, s.code[s.pc]? = some insn ∧ hasHandler s.tos insn.kind := by
  have hok : ProperDispatch (staticSum.tosEnv staticSumAnalysis) staticSumEntry
      (.step (.proceed [] (.int 0) 1)) := by
    refine ⟨nofun, ?_⟩
    rintro ⟨insn, hi, hkind, -⟩
    cases hi
    cases hkind
  have hstep : tosStep (staticSum.tosEnv staticSumAnalysis) staticSumEntry
      (.step (.proceed [] (.int 0) 1)) =
        some ⟨1, .int, .int 0, 1, fun _ => .int 7, [], staticSumAnalysis.code, none⟩ := rfl
  have hrun := Runs.refl.tail hok hstep
  obtain ⟨hstate, -⟩ := dispatch_consistent staticSum_verified (by decide) staticSum_accepted
    staticSumEntry_entry hrun
  obtain ⟨insn, -, hi, -, -, hhandler, -⟩ := hstate rfl
  exact ⟨_, hrun, rfl, insn, hi, hhandler⟩

/-- The handler of `getstatic` rewrites its instruction and goes on with `JMP_VOID`, with a value on
the stack and `TOS_INT` recorded for the instruction. -/
theorem staticSum_goes_on_void :
    ∃ s s' insn, analyzeMethodCode 1 staticSum = some (.ok staticSumAnalysis) ∧
      Reachable (tosStep (staticSum.tosEnv staticSumAnalysis)) staticSumEntry s ∧
      tosStep (staticSum.tosEnv staticSumAnalysis) s (.resolve .getstaticI) = some s' ∧
      s'.code[s'.pc]? = some insn ∧ s'.tos = .void ∧ insn.tosBefore = .int :=
  ⟨_, _, _, rfl, reachable_of_run (w := [.step (.proceed [] (.int 0) 1)]) rfl, rfl, rfl, rfl, rfl⟩

end TraceJvm
