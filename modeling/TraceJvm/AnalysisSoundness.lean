import TraceJvm.AnalysisAgreement
import TraceJvm.FrameTyping

/-! Soundness of the recorded states: an activation of an accepted method with a stack map table
holds, at every instruction that it reaches, values of the recorded kinds. -/
namespace TraceJvm

open Transition List Option

/-- What the collector relies on: the depth of the stack and the kinds of the cells. -/
structure StackSummary.Holds (r : StackSummary) (stack locals : List Value) : Prop where
  stack : List.Forall₂ HoldsKind r.stack stack
  locals : ∀ (j : ℕ) (k : TypeKind), r.locals[j]? = some k → k ≠ .void →
    ∃ v : Value, locals[j]? = some v ∧ v.kind = k

theorem FieldDescriptor.representation_reprKind (d : FieldDescriptor) :
    d.reprKind.validationKind.representation = d.reprKind ∧
      d.reprKind.validationKind.isWide = d.isWide := by
  unfold FieldDescriptor.reprKind FieldDescriptor.isWide
  by_cases hd : d.dimensions = 0
  · cases hb : d.baseKind <;> simp [hd, TypeKind.representable, TypeKind.validationKind,
      ValidationKind.representation, ValidationKind.isWide, TypeKind.isWide]
  · simp [hd, TypeKind.validationKind, ValidationKind.representation, ValidationKind.isWide]

variable {maxLocals : ℕ}

theorem argSlots_localSlots {j s : ℕ} {args : List FieldDescriptor} {l : List ℕ}
    {v : ValidationType} (h : argSlots maxLocals j args = some l)
    (hs : (localSlots (args.map fun a => a.reprKind.validationKind))[s]? = some v)
    (hv : v.kind.representation ≠ .void) : ∃ n : ℕ, l[n]? = some (j + s) ∧
      (args.map FieldDescriptor.reprKind)[n]? = some v.kind.representation := by
  induction args generalizing j l s with
  | nil => simp [localSlots] at hs
  | cons a as ih =>
    obtain ⟨hrep, hwide⟩ := a.representation_reprKind
    rw [map_cons, ← singleton_append, localSlots_append, localSlots_singleton] at hs
    have hdone : ∀ (d : ℕ) (l' : List ℕ), argSlots maxLocals (j + d) as = some l' → l = j :: l' →
        d = a.reprKind.validationKind.slots.length →
        ∃ n : ℕ, l[n]? = some (j + s) ∧
          ((a :: as).map FieldDescriptor.reprKind)[n]? = some v.kind.representation := by
      rintro d l' hl' rfl hd
      by_cases hlt : s < d
      · rw [getElem?_append_left (by omega)] at hs
        have hzero : s = 0 ∧ v.kind = a.reprKind.validationKind := by
          unfold ValidationKind.slots at hs
          rcases s with _ | _ | s
          · have hhead : (⟨a.reprKind.validationKind, false⟩ : ValidationType) = v := by
              split at hs <;> simpa using hs
            exact ⟨rfl, by rw [← hhead]⟩
          · split at hs
            · obtain rfl : implicitTop = v := by simpa using hs
              exact absurd rfl hv
            · simp at hs
          · split at hs <;> simp at hs
        obtain ⟨rfl, hkind⟩ := hzero
        exact ⟨0, by simp, by simp [hkind, hrep]⟩
      · rw [getElem?_append_right (by omega), ← hd] at hs
        obtain ⟨n, hn, hk⟩ := ih hl' hs
        refine ⟨n + 1, ?_, by simpa using hk⟩
        rw [getElem?_cons_succ, hn]
        congr 1
        omega
    simp only [argSlots] at h
    split at h
    · split at h
      · rename_i hw
        split at h
        · obtain ⟨l', hl', rfl⟩ := map_eq_some_iff.mp h
          exact hdone 2 l' hl' rfl (by simp [ValidationKind.slots, hwide, hw])
        · cases h
      · rename_i hw
        obtain ⟨l', hl', rfl⟩ := map_eq_some_iff.mp h
        exact hdone 1 l' hl' rfl (by simp [ValidationKind.slots, hwide, hw])
    · cases h

/-- Every slot of known kind on entry is that of an argument. -/
theorem entryFrame_slot {m : CodeMethod} {slots : List ℕ} {s : ℕ} (h : m.entrySlots = some slots)
    (hv : (KindFrame.ofDeclared m.entryFrame).locals s ≠ .void) :
    ∃ n : ℕ, slots[n]? = some s ∧
      m.entryKinds[n]? = some ((KindFrame.ofDeclared m.entryFrame).locals s) := by
  simp only [KindFrame.ofDeclared, CodeMethod.entryFrame] at hv ⊢
  cases hslot : (localSlots m.entryLocals)[s]? with
  | none => simp [hslot] at hv
  | some v =>
    simp only [hslot, map_some, getD_some] at hv ⊢
    unfold CodeMethod.entrySlots at h
    unfold CodeMethod.entryLocals at hslot
    rw [localSlots_append] at hslot
    cases hst : m.isStatic with
    | true =>
      rw [if_pos hst] at h
      simp only [hst, if_true, localSlots, flatMap_nil, nil_append] at hslot
      simpa [CodeMethod.entryKinds, hst] using argSlots_localSlots h hslot hv
    | false =>
      rw [if_neg (by simp [hst])] at h
      split at h
      · cases h
      obtain ⟨l, hl, rfl⟩ := map_eq_some_iff.mp h
      simp only [hst, Bool.false_eq_true, if_false] at hslot
      have hthis : ∃ k : ValidationKind, k.representation = .reference ∧
          localSlots [if m.isCtor then .uninitThis else .object] = [⟨k, false⟩] := by
        cases m.isCtor
        · exact ⟨.object, rfl, rfl⟩
        · exact ⟨.uninitThis, rfl, rfl⟩
      obtain ⟨k, hk, hthis⟩ := hthis
      rw [hthis] at hslot
      rcases s with _ | s
      · obtain rfl : (⟨k, false⟩ : ValidationType) = v := by simpa using hslot
        exact ⟨0, by simp, by simp [CodeMethod.entryKinds, hst, hk]⟩
      · obtain ⟨n, hn, hkn⟩ := argSlots_localSlots hl (by simpa using hslot) hv
        refine ⟨n + 1, ?_, by simpa [CodeMethod.entryKinds, hst] using hkn⟩
        rw [getElem?_cons_succ, hn]
        congr 1
        omega

theorem JavaFrame.Entry.holds {m : CodeMethod} {swizzle : List ℕ} {locals : List TypeKind}
    {s : JavaFrame} (h : s.Entry m) (he : m.localsOnMethodEntry = .ok (swizzle, locals)) :
    HoldsFrame swizzle (.ofDeclared m.entryFrame) s.stack s.locals := by
  obtain ⟨hz, -, slots, hslots, hmap⟩ := localsOnMethodEntry_swizzles he
  refine ⟨by simp [h.stack, KindFrame.ofDeclared, CodeMethod.entryFrame], fun t j ht hv => ?_⟩
  obtain ⟨n, hn, hk⟩ := entryFrame_slot hslots hv
  obtain rfl : j = n := some.inj (ht.symm.trans (hmap n t hn))
  exact h.args j _ hk

variable {c : AnalysisCtx} {f : KindFrame} {locals stack : List Value}

theorem StackSummary.Holds.frame {swizzle : List ℕ}
    (h : StackSummary.Holds ⟨c.stack, c.locals⟩ stack locals)
    (hs : c.stack = f.stack) (hl : AgreesLocals swizzle c.locals f.locals) :
    HoldsFrame swizzle f stack locals :=
  ⟨hs ▸ h.stack, fun s j hj hv => h.locals j _ (hl s j hj hv) hv⟩

theorem FrameExact.holds {swizzle : List ℕ}
    (hz : Swizzles maxLocals swizzle) (h : FrameExact swizzle c f)
    (hlen : c.locals.length = maxLocals) (hf : HoldsFrame swizzle f stack locals) :
    StackSummary.Holds ⟨c.stack, c.locals⟩ stack locals := by
  refine ⟨h.stack ▸ hf.stack, fun j k hk hv => ?_⟩
  have hj : j < maxLocals := hlen ▸ (List.getElem?_eq_some_iff.mp hk).1
  obtain ⟨s, hs⟩ := hz.exists_slot hj
  obtain rfl : k = f.locals s := some.inj (hk.symm.trans (h.locals s j hs))
  exact hf.locals s j hs hv

variable {insn insn' : Instruction}

theorem Analyzed.locals_eq {env : AnalysisEnv} {b : Bool} {curr : ℕ} {st ls : List TypeKind}
    (h : Analyzed env b curr insn c st ls insn') :
    (∃ k j, storeKind insn.kind = some k ∧ env.swizzle[insn.index]? = some j ∧
      ls = c.locals.set j k) ∨ storeKind insn.kind = none ∧ ls = c.locals := by
  cases h with
  | load hk _ _ _ => exact .inr ⟨storeKind_of_loadKind hk, rfl⟩
  | store _ hk _ hj _ => exact .inl ⟨_, _, hk, hj, rfl⟩
  | iinc hk _ _ => exact .inr ⟨by rw [hk]; rfl, rfl⟩
  | put hk _ => exact .inr ⟨by rcases hk with hk | hk <;> rw [hk] <;> rfl, rfl⟩
  | shuffle hk _ => exact .inr ⟨(loadKind_of_isShuffle hk).2.1, rfl⟩
  | effect _ hs _ _ _ _ _ => exact .inr ⟨hs, rfl⟩

/-- The known locals hold after the instruction, also those that the type checker has lost. -/
theorem Executed.locals_hold {env : AnalysisEnv} {b : Bool} {curr : ℕ}
    {g : KindFrame} {st ls : List TypeKind} {operands stack' locals' : List Value} {v : Value}
    {insn'' : Instruction}
    (h : Executed env.maxLocals env.swizzle insn insn'' f operands v stack locals g stack' locals')
    (ha : Analyzed env b curr insn c st ls insn') (hs : c.stack = f.stack)
    (hl : AgreesLocals env.swizzle c.locals f.locals)
    (hc : StackSummary.Holds ⟨c.stack, c.locals⟩ stack locals) (j : ℕ) (k : TypeKind)
    (hk : ls[j]? = some k) (hv : k ≠ .void) : ∃ x : Value, locals'[j]? = some x ∧ x.kind = k := by
  cases h with
  | load hload _ _ _ _ _ =>
    rcases ha.locals_eq with ⟨k', _, hk', -, -⟩ | ⟨-, rfl⟩
    · rw [storeKind_of_loadKind hload] at hk'
      cases hk'
    · exact hc.locals j k hk hv
  | store hload hstore hfit hst hj hx ho hlt =>
    rcases ha.locals_eq with ⟨k', i, hk', hi, rfl⟩ | ⟨hk', -⟩
    · cases hstore.symm.trans hk'
      cases hj.symm.trans hi
      have htop := hc.stack
      rw [hs, hst, hx] at htop
      cases htop with
      | cons htop _ =>
        rw [getElem?_set] at hk ⊢
        split at hk
        · split at hk
          · cases hk
            exact ⟨_, by simp_all, htop.resolve_left hv⟩
          · cases hk
        · rename_i hne
          rw [if_neg hne]
          exact hc.locals j k hk hv
    · rw [hstore] at hk'
      cases hk'
  | iinc hinc _ hlocal hj hx ho hvi =>
    rcases ha.locals_eq with ⟨k', _, hk', -, -⟩ | ⟨-, rfl⟩
    · rw [hinc] at hk'
      cases hk'
    · rw [getElem?_set]
      split
      · rename_i heq
        subst heq
        have hint := hl _ _ hj (by simp [hlocal])
        cases hk.symm.trans hint
        have hlt := (List.getElem?_eq_some_iff.mp hx).1
        exact ⟨v, by simp [hlt], hvi.trans hlocal.symm⟩
      · exact hc.locals j k hk hv
  | shuffle hsh _ _ _ =>
    rcases ha.locals_eq with ⟨k', _, hk', -, -⟩ | ⟨-, rfl⟩
    · rw [(loadKind_of_isShuffle hsh).2.1] at hk'
      cases hk'
    · exact hc.locals j k hk hv
  | other _ hstore _ _ _ _ _ _ _ _ _ =>
    rcases ha.locals_eq with ⟨k', _, hk', -, -⟩ | ⟨-, rfl⟩
    · rw [hstore] at hk'
      cases hk'
    · exact hc.locals j k hk hv

/-- The state of an activation at an instruction that the type checker knows. -/
structure SoundAt (m : CodeMethod) (all : List DeclaredFrame) (A : CodeAnalysis)
    (s : JavaFrame) : Prop where
  typed : ∃ f, kindsAt m.maxLocals m.code all s.pc = some f
  recorded : ∃ r, A.states[s.pc]? = some r ∧ r.Holds s.stack s.locals
  length : s.locals.length = m.maxLocals

variable {code : List Instruction}

theorem kindsAt_of_declaredAt {i : ℕ}
    {all : List DeclaredFrame} {d : KindFrame} (h : declaredAt code all i = some d) :
    kindsAt maxLocals code all i = some d := by
  cases i with
  | zero => exact h
  | succ i => simp only [kindsAt, h]

theorem kindsAt_succ {i : ℕ} {all : List DeclaredFrame}
    {g : KindFrame} (hd : declaredAt code all (i + 1) = none)
    (hi : code[i]? = some insn) (hk : insn.kind.terminates = false)
    (hf : kindsAt maxLocals code all i = some f) (hg : typeStep maxLocals insn f = some g) :
    kindsAt maxLocals code all (i + 1) = some g := by
  simp [kindsAt, hd, hi, hk, hf, hg]

section Step

variable {m : CodeMethod} {all : List DeclaredFrame} {A : CodeAnalysis} {swizzle : List ℕ}
  (hz : Swizzles m.maxLocals swizzle) (hk : KindConsistent m all)
  (htrace : ∀ i insn, m.code[i]? = some insn → ∃ c c' insn',
    TraceAt (m.analysisEnv swizzle) m.code all A.states A.code i insn c c' insn')

include hz htrace in
theorem soundAt_declared {t : ℕ} {d : KindFrame} {stack locals : List Value}
    (hd : declaredAt m.code all t = some d) (hf : HoldsFrame swizzle d stack locals)
    (hlen : locals.length = m.maxLocals) : SoundAt m all A ⟨t, stack, locals⟩ := by
  obtain ⟨insn, hi, -⟩ := bind_eq_some_iff.mp hd
  obtain ⟨c, c', insn', ht⟩ := htrace t insn hi
  refine ⟨⟨d, kindsAt_of_declaredAt hd⟩, ⟨_, ht.state, ?_⟩, hlen⟩
  exact (ht.declared d hd).holds hz ht.length hf

include hk in
theorem code_of_kindsAt {i : ℕ} {f : KindFrame}
    (h : kindsAt m.maxLocals m.code all i = some f) : ∃ insn, m.code[i]? = some insn := by
  cases i with
  | zero =>
    obtain ⟨insn, hi, -⟩ := bind_eq_some_iff.mp h
    exact ⟨insn, hi⟩
  | succ i =>
    simp only [kindsAt] at h
    split at h
    · rename_i d hd
      obtain ⟨insn, hi, -⟩ := bind_eq_some_iff.mp hd
      exact ⟨insn, hi⟩
    · obtain ⟨insn, hi, h⟩ := bind_eq_some_iff.mp h
      split at h
      · cases h
      rename_i hterm
      obtain ⟨e, he, -⟩ := bind_eq_some_iff.mp h
      obtain ⟨g, -, -, hnext⟩ := hk.step i insn e hi he
      exact ⟨_, getElem?_eq_getElem (hnext (by simpa using hterm)).1⟩

include hz hk htrace in
/-- One step keeps the activation sound. -/
theorem soundAt_step {s t : JavaFrame} {e : FrameEvent} (h : SoundAt m all A s)
    (hstep : frameStep m.maxLocals m.exceptionTable A.code s e = some t) : SoundAt m all A t := by
  obtain ⟨⟨f, hf⟩, ⟨r, hr, hholds⟩, hlen⟩ := h
  obtain ⟨insn, hi⟩ := code_of_kindsAt hk hf
  obtain ⟨c, c', insn', hag⟩ := trace_agrees hz htrace s.pc insn f hi hf
  obtain rfl : r = ⟨c.stack, c.locals⟩ := some.inj (hr.symm.trans hag.state)
  have hframe := hholds.frame hag.stack hag.locals
  cases e with
  | caught e x =>
    simp only [frameStep] at hstep
    split at hstep
    · rename_i hcov
      cases hstep
      obtain ⟨d, hd, hassign⟩ := hk.handlers s.pc f hf e hcov.1 hcov.2.1
      have hcaught : HoldsFrame swizzle ⟨[.reference], f.locals⟩ [.reference (some x)] s.locals :=
        ⟨.cons (.inr rfl) .nil, hframe.locals⟩
      exact soundAt_declared hz htrace hd (hcaught.assignable hassign) hlen
    · cases hstep
  | proceed operands v target =>
    simp only [frameStep, hag.output, bind_some] at hstep
    split at hstep
    · rename_i hsucc
      obtain ⟨⟨stack', locals'⟩, hexec, rfl⟩ := map_eq_some_iff.mp hstep
      obtain ⟨g, hg, hbranch, hnext⟩ := hk.step s.pc insn f hi hf
      obtain ⟨before, after, insn₁, -, -, hana, rfl⟩ := analyzeInstruction_analyzed hag.analyzed
      have hty : Typed m.maxLocals { insn with tosBefore := before } f g := typeStep_typed hg
      have hrw : Rewritten m.maxLocals swizzle s.pc { insn with tosBefore := before } f.stack
          { insn₁ with tosAfter := after } := by
        rw [← hag.stack]
        exact @Analyzed.rewritten { insn with tosBefore := before } _ _ _ _ _ _ _ _ hana
      have hdone := hrw.executed hz hty hexec
      have hafter := hdone.holds hz hframe
      have hlen' := hdone.locals_length.trans hlen
      rcases (hrw.mem_successors hty).mp hsucc with hmem | ⟨hterm, rfl⟩
      · obtain ⟨d, hd, hassign⟩ := hbranch target hmem
        exact soundAt_declared hz htrace hd (hafter.assignable hassign) hlen'
      · obtain ⟨hlt, hassign⟩ := hnext hterm
        cases hd : declaredAt m.code all (s.pc + 1) with
        | some d => exact soundAt_declared hz htrace hd (hafter.assignable (hassign d hd)) hlen'
        | none =>
          obtain ⟨c₂, c₂', insn₂, ht₂⟩ := htrace _ _ (getElem?_eq_getElem hlt)
          have hcarry := hag.carried hd _ ht₂.state
          refine ⟨⟨g, kindsAt_succ hd hi hterm hf hg⟩, ⟨_, ht₂.state, ?_⟩, hlen'⟩
          rw [hcarry]
          refine ⟨(hag.after g hg).1 ▸ hafter.stack, ?_⟩
          exact hdone.locals_hold hana hag.stack hag.locals hholds
    · cases hstep

end Step

theorem declaredAt_zero {m : CodeMethod} {frames : List StackMapFrame} {all : List DeclaredFrame}
    (hall : m.declaredFrames frames = some all)
    (hb : ∀ d ∈ all, ∃ insn ∈ m.code, insn.originalPc = d.pc) :
    ∃ f, declaredAt m.code all 0 = some f := by
  have hzero : ∃ d ∈ all, d.pc = 0 := by
    obtain ⟨ds, -, rfl⟩ := map_eq_some_iff.mp hall
    split
    · rename_i hany
      cases ds with
      | nil => simp at hany
      | cons d ds => exact ⟨d, by simp, by simpa using hany⟩
    · exact ⟨m.entryFrame, by simp, rfl⟩
  obtain ⟨d, hd, hpc⟩ := hzero
  obtain ⟨insn, hmem, -⟩ := hb d hd
  obtain ⟨first, hfirst⟩ : ∃ first, m.code[0]? = some first :=
    ⟨_, getElem?_eq_getElem (length_pos_of_mem hmem)⟩
  have horig := m.pc_zero first hfirst
  rw [declaredAt, hfirst, bind_some, horig]
  cases hfind : all.find? fun d => d.pc = 0 with
  | none =>
    rw [find?_eq_none] at hfind
    exact absurd hpc (by simpa using hfind d hd)
  | some d => exact ⟨.ofDeclared d, rfl⟩

/-- Soundness of the analysis of a method with a stack map table: at every instruction that an
activation reaches, the stack has the recorded depth and every cell of recorded kind holds a value
of that kind. -/
theorem analyzeMethodCode_sound {fuel : ℕ} {m : CodeMethod} {A : CodeAnalysis}
    {frames : List StackMapFrame} {all : List DeclaredFrame} {s₀ s : JavaFrame}
    (hsmt : m.missingSmt = false) (henc : m.encodes frames)
    (hall : m.declaredFrames frames = some all) (hk : KindConsistent m all)
    (hstart : startsProperly frames) (h : analyzeMethodCode fuel m = some (.ok A))
    (hentry : s₀.Entry m)
    (hrun : Reachable (frameStep m.maxLocals m.exceptionTable A.code) s₀ s) :
    ∃ r, A.states[s.pc]? = some r ∧ s.stack.length = r.stack.length ∧ r.Holds s.stack s.locals := by
  obtain ⟨swizzle, locals, hlocals, -, htrace⟩ :=
    analyzeMethodCode_trace hsmt henc hall hstart hk.boundaries h
  obtain ⟨hz, -, -⟩ := localsOnMethodEntry_swizzles hlocals
  have hinit : SoundAt m all A s₀ := by
    obtain ⟨d, hd⟩ := declaredAt_zero hall hk.boundaries
    have hframe := (hentry.holds hlocals).assignable (hk.entry d hd)
    have hzero := soundAt_declared hz htrace hd hframe hentry.length
    rw [← hentry.pc] at hzero
    exact hzero
  have hsound := hrun.invariant (SoundAt m all A) hinit
    fun _ _ _ hv _ hstep => soundAt_step hz hk htrace hv hstep
  obtain ⟨r, hr, hholds⟩ := hsound.recorded
  exact ⟨r, hr, hholds.stack.length_eq.symm, hholds⟩

/-- `static void f(long)`, which stores 0 in a local of its own for ever. -/
def storeLoop : CodeMethod where
  maxStack := 1
  maxLocals := 3
  code := [{ kind := .iconst, originalPc := 0 }, { kind := .istore, originalPc := 1, index := 2 },
    { kind := .goto, originalPc := 2, index := 0 }]
  exceptionTable := []
  lvt := []
  stackMapTable := some [0]
  pc_zero := by simp
  pc_lt := by decide
  isStatic := true
  isCtor := false
  descriptor := ⟨[.ofKind .long], .ofKind .void, FieldDescriptor.long_ne_void⟩
  missingSmt := false
  missing_eq := nofun

theorem storeLoop_consistent : KindConsistent storeLoop [storeLoop.entryFrame] where
  boundaries := by
    intro d hd
    obtain rfl := mem_singleton.mp hd
    exact ⟨{ kind := .iconst, originalPc := 0 }, by decide, rfl⟩
  entry := by
    rintro f ⟨⟩
    exact ⟨.nil, fun s => .inr rfl⟩
  step := by
    intro i insn f hi hf
    match i with
    | 0 | 1 =>
      cases hi
      cases hf
      exact ⟨_, rfl, nofun, fun _ => ⟨by decide, nofun⟩⟩
    | 2 =>
      cases hi
      cases hf
      refine ⟨_, rfl, fun t ht => ?_, nofun⟩
      obtain rfl := mem_singleton.mp ht
      refine ⟨_, rfl, .nil, fun s => ?_⟩
      rcases s with _ | _ | _ | s
      all_goals first | exact .inr rfl | exact .inl rfl
    | i + 3 => simp [storeLoop] at hi
  handlers := fun _ _ _ _ he => by cases he

theorem analyzeMethodCode_sound_storeLoop :
    ∃ A, analyzeMethodCode 1 storeLoop = some (.ok A) ∧
      ∃ r, A.states[1]? = some r ∧ 1 = r.stack.length ∧
        r.Holds [.int 0] [.long 5, .int 7, .int 3] := by
  have hentry : JavaFrame.Entry storeLoop ⟨0, [], [.long 5, .int 7, .int 3]⟩ := by
    refine ⟨rfl, rfl, rfl, fun n k hk => ?_⟩
    rcases n with _ | n
    · cases hk
      exact ⟨.long 5, rfl, rfl⟩
    · cases hk
  have henc : storeLoop.encodes [.sameFrame 0] := .inl rfl
  have hA : analyzeMethodCode 1 storeLoop = some (.ok _) := rfl
  refine ⟨_, hA, ?_⟩
  refine analyzeMethodCode_sound (s := ⟨1, [.int 0], [.long 5, .int 7, .int 3]⟩) rfl henc rfl
    storeLoop_consistent rfl hA hentry ?_
  exact reachable_of_run (w := [.proceed [] (.int 0) 1]) rfl

/-- `static void f(Object)`, which overwrites its argument in a loop. The frame of the loop head
drops the argument, by a `chop_frame` at offset 0. -/
def choppedLoop : CodeMethod where
  maxStack := 1
  maxLocals := 1
  code := [{ kind := .iconst, originalPc := 0 }, { kind := .istore, originalPc := 1 },
    { kind := .goto, originalPc := 2, index := 0 }]
  exceptionTable := []
  lvt := []
  stackMapTable := some [250, 0, 0]
  pc_zero := by simp
  pc_lt := by decide
  isStatic := true
  isCtor := false
  descriptor := ⟨[.ofKind .reference], .ofKind .void, FieldDescriptor.reference_ne_void⟩
  missingSmt := false
  missing_eq := nofun

theorem choppedLoop_consistent : KindConsistent choppedLoop [⟨0, [], []⟩] where
  boundaries := by
    intro d hd
    obtain rfl := mem_singleton.mp hd
    exact ⟨{ kind := .iconst, originalPc := 0 }, by decide, rfl⟩
  entry := by
    rintro f ⟨⟩
    exact ⟨.nil, fun s => .inl rfl⟩
  step := by
    intro i insn f hi hf
    match i with
    | 0 | 1 =>
      cases hi
      cases hf
      exact ⟨_, rfl, nofun, fun _ => ⟨by decide, nofun⟩⟩
    | 2 =>
      cases hi
      cases hf
      refine ⟨_, rfl, fun t ht => ?_, nofun⟩
      obtain rfl := mem_singleton.mp ht
      exact ⟨_, rfl, .nil, fun s => .inl rfl⟩
    | i + 3 => simp [choppedLoop] at hi
  handlers := fun _ _ _ _ he => by cases he

/-- The analyser never looks at the frame at offset 0: back at the loop head the argument is still
recorded as a reference, and the local holds an `int`. -/
theorem choppedLoop_unsound :
    ∃ A s₀ s, choppedLoop.encodes [.chop 0 0] ∧
      choppedLoop.declaredFrames [.chop 0 0] = some [⟨0, [], []⟩] ∧
      KindConsistent choppedLoop [⟨0, [], []⟩] ∧ analyzeMethodCode 1 choppedLoop = some (.ok A) ∧
      JavaFrame.Entry choppedLoop s₀ ∧
      Reachable (frameStep choppedLoop.maxLocals choppedLoop.exceptionTable A.code) s₀ s ∧
      ¬ ∃ r, A.states[s.pc]? = some r ∧ s.stack.length = r.stack.length ∧
        r.Holds s.stack s.locals := by
  have hentry : JavaFrame.Entry choppedLoop ⟨0, [], [.reference none]⟩ := by
    refine ⟨rfl, rfl, rfl, fun n k hk => ?_⟩
    rcases n with _ | n
    · cases hk
      exact ⟨.reference none, rfl, rfl⟩
    · cases hk
  refine ⟨_, _, ⟨0, [], [.int 7]⟩, .inl rfl, rfl, choppedLoop_consistent, rfl, hentry,
    reachable_of_run (w := [.proceed [] (.int 7) 1, .proceed [.int 7] (.int 7) 2,
      .proceed [] (.int 7) 0]) rfl, ?_⟩
  rintro ⟨r, hr, -, hholds⟩
  cases hr
  obtain ⟨v, hv, hkind⟩ := hholds.locals 0 .reference rfl fun h => by cases h
  cases hv
  cases hkind

end TraceJvm
