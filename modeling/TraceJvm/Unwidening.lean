import TraceJvm.AnalysisInference
import TraceJvm.SlotMachine

/-! The rewriting preserves the meaning of a method: an activation of the rewritten code, with one
cell for every value and the locals renumbered, goes in step with one of the original code. -/
namespace TraceJvm

open Transition List Option

theorem slots_of_isNarrow {k : TypeKind} {v : Value} (hk : k.isNarrow)
    (h : HoldsKind k v) : v.slots = [.whole v] := by
  obtain ⟨hw, hv⟩ := isNarrow_iff.mp hk
  rw [Value.slots, h.resolve_left hv, if_neg (by simp [hw])]

theorem slots_of_isWide {k : TypeKind} {v : Value} (hk : k.isWide) (h : HoldsKind k v) :
    v.slots = [.low v, .high v] := by
  have hv : k ≠ .void := by
    rintro rfl
    cases hk
  rw [Value.slots, h.resolve_left hv, if_pos hk]

/-- The chosen form does to whole values what the original instruction does to slots. -/
theorem ShuffleForm.flatMap_slots {kind kind' : InsnKind} {ks st : List TypeKind}
    {vs : List Value} (h : ShuffleForm kind kind' ks st) (hv : List.Forall₂ HoldsKind ks vs) :
    ∃ vs', shuffleSlots kind' vs = some vs' ∧
      shuffleSlots kind (vs.flatMap Value.slots) = some (vs'.flatMap Value.slots) := by
  cases h with
  | dup ha | pop ha =>
    rcases hv with _ | ⟨hx, hv⟩
    exact ⟨_, rfl, by simp [shuffleSlots, slots_of_isNarrow ha hx]⟩
  | dupX1 ha hb | dup2 ha hb | pop2 ha hb | swap ha hb =>
    rcases hv with _ | ⟨hx, _ | ⟨hy, hv⟩⟩
    exact ⟨_, rfl, by simp [shuffleSlots, slots_of_isNarrow ha hx, slots_of_isNarrow hb hy]⟩
  | dupX2Wide ha hb =>
    rcases hv with _ | ⟨hx, _ | ⟨hy, hv⟩⟩
    exact ⟨_, rfl, by simp [shuffleSlots, slots_of_isNarrow ha hx, slots_of_isWide hb hy]⟩
  | dupX2 ha hb hc | dup2X1 ha hb hc =>
    rcases hv with _ | ⟨hx, _ | ⟨hy, _ | ⟨hz, hv⟩⟩⟩
    exact ⟨_, rfl, by simp [shuffleSlots, slots_of_isNarrow ha hx, slots_of_isNarrow hb hy,
      slots_of_isNarrow hc hz]⟩
  | dup2Wide ha | pop2Wide ha =>
    rcases hv with _ | ⟨hx, hv⟩
    exact ⟨_, rfl, by simp [shuffleSlots, slots_of_isWide ha hx]⟩
  | dup2X1Wide ha hb =>
    rcases hv with _ | ⟨hx, _ | ⟨hy, hv⟩⟩
    exact ⟨_, rfl, by simp [shuffleSlots, slots_of_isWide ha hx, slots_of_isNarrow hb hy]⟩
  | dup2X2WideWide ha hb =>
    rcases hv with _ | ⟨hx, _ | ⟨hy, hv⟩⟩
    exact ⟨_, rfl, by simp [shuffleSlots, slots_of_isWide ha hx, slots_of_isWide hb hy]⟩
  | dup2X2Wide ha hb hc =>
    rcases hv with _ | ⟨hx, _ | ⟨hy, _ | ⟨hz, hv⟩⟩⟩
    exact ⟨_, rfl, by simp [shuffleSlots, slots_of_isWide ha hx, slots_of_isNarrow hb hy,
      slots_of_isNarrow hc hz]⟩
  | dup2X2Under ha hb hc =>
    rcases hv with _ | ⟨hx, _ | ⟨hy, _ | ⟨hz, hv⟩⟩⟩
    exact ⟨_, rfl, by simp [shuffleSlots, slots_of_isNarrow ha hx, slots_of_isNarrow hb hy,
      slots_of_isWide hc hz]⟩
  | dup2X2 ha hb hc hd =>
    rcases hv with _ | ⟨hx, _ | ⟨hy, _ | ⟨hz, _ | ⟨hw, hv⟩⟩⟩⟩
    exact ⟨_, rfl, by simp [shuffleSlots, slots_of_isNarrow ha hx, slots_of_isNarrow hb hy,
      slots_of_isNarrow hc hz, slots_of_isNarrow hd hw]⟩

/-- The cells of an activation hold what the slots of the original one hold, where the frame `f`
knows a kind. -/
structure SameContents (maxLocals : ℕ) (swizzle : List ℕ) (f : KindFrame)
    (slots slotLocals : List Slot) (stack locals : List Value) : Prop where
  holds : HoldsFrame swizzle f stack locals
  slots_eq : slots = stack.flatMap Value.slots
  read : ∀ s j : ℕ, swizzle[s]? = some j → f.locals s ≠ .void →
    readSlots slotLocals s (f.locals s) = locals[j]?
  slotLength : slotLocals.length = maxLocals
  length : locals.length = maxLocals

variable {maxLocals : ℕ} {swizzle : List ℕ} {insn insn' : Instruction} {f g : KindFrame}
  {operands stack locals stack' locals' : List Value} {v : Value} {slots slotLocals : List Slot}

theorem SameContents.assignable (h : SameContents maxLocals swizzle f slots slotLocals stack locals)
    (ha : f.Assignable g) : SameContents maxLocals swizzle g slots slotLocals stack locals := by
  refine { h with holds := h.holds.assignable ha, read := fun s j hs hv => ?_ }
  rcases ha.locals s with hl | hl
  · exact absurd hl hv
  · rw [hl] at hv ⊢
    exact h.read s j hs hv

theorem writeSlots_eq_some {n : ℕ} {k : TypeKind} {x : Value} (hx : x.kind = k)
    (hfit : localFits slotLocals.length n k) : ∃ ls, writeSlots slotLocals n x = some ls ∧
      ls.length = slotLocals.length := by
  unfold localFits at hfit
  unfold writeSlots
  rw [hx]
  split at hfit
  · rename_i hw
    rw [if_pos hw, if_pos (by simpa using hfit)]
    exact ⟨_, rfl, by simp⟩
  · rename_i hw
    rw [if_neg hw, if_pos (by simpa using hfit)]
    exact ⟨_, rfl, by simp⟩

theorem operands_kinds {ks st : List TypeKind} {vs ws : List Value}
    (h : List.Forall₂ HoldsKind (ks ++ st) vs) (hv : .void ∉ ks) (hlen : ws.length = ks.length)
    (hw : ws <+: vs) : ws.map Value.kind = ks := by
  induction ks generalizing vs ws with
  | nil => simpa using hlen
  | cons k ks ih =>
    obtain ⟨t, rfl⟩ := hw
    cases ws with
    | nil => simp at hlen
    | cons w ws =>
      simp only [mem_cons, not_or] at hv
      cases h with
      | cons hk h =>
        rw [map_cons, hk.resolve_left (Ne.symm hv.1), ih h hv.2 (by simpa using hlen) ⟨t, rfl⟩]

/-- A step of the rewritten code is one of the original code. -/
theorem Executed.execSlots (hz : Swizzles maxLocals swizzle)
    (h : Executed maxLocals swizzle insn insn' f operands v stack locals g stack' locals')
    (hs : SameContents maxLocals swizzle f slots slotLocals stack locals) :
    ∃ slots' slotLocals',
      TraceJvm.execSlots insn operands v slots slotLocals = some (slots', slotLocals') ∧
      SameContents maxLocals swizzle g slots' slotLocals' stack' locals' := by
  have hholds := h.holds hz hs.holds
  have hlength := h.locals_length.trans hs.length
  cases h with
  | @load k j x hk hfit hlocal hj hx ho =>
    have hread : readSlots slotLocals insn.index (f.locals insn.index) = some x :=
      (hs.read _ _ hj (by rw [hlocal]; exact loadKind_ne_void hk)).trans hx
    rw [hlocal] at hread
    refine ⟨x.slots ++ slots, slotLocals, by simp [TraceJvm.execSlots, hk, hread, ho], hholds, ?_,
      hs.read,
      hs.slotLength, hlength⟩
    simp [hs.slots_eq]
  | @store k j x st _ hl hk hfit hst hj hx ho hlt =>
    have htop := hs.holds.stack
    rw [hst, hx] at htop
    cases htop with
    | cons htop _ =>
      have hkind := htop.resolve_left (storeKind_ne_void hk)
      rw [← hs.slotLength] at hfit
      obtain ⟨ls, hwrite, hlen⟩ := writeSlots_eq_some hkind hfit
      have hslots : slots = x.slots ++ stack'.flatMap Value.slots := by
        simp [hs.slots_eq, hx]
      refine ⟨stack'.flatMap Value.slots, ls,
        by simp [TraceJvm.execSlots, hl, hk, ho, hkind, hslots, hwrite], hholds, rfl, ?_,
        hlen.trans hs.slotLength, hlength⟩
      · intro s i hi hv
        dsimp only at hv ⊢
        unfold storeLocal at hv ⊢
        by_cases hsn : s = insn.index
        · subst hsn
          obtain rfl : j = i := some.inj (hj.symm.trans hi)
          rw [if_pos rfl, ← hkind, readSlots_writeSlots hwrite]
          simp [hlt]
        · have hne : j ≠ i := by
            rintro rfl
            exact hsn (hz.get_inj hi hj)
          simp only [hsn, if_false] at hv ⊢
          split at hv
          · exact absurd rfl hv
          split at hv
          · exact absurd rfl hv
          rename_i h1 h2
          rw [if_neg h1, if_neg h2, getElem?_set_ne hne, ← hs.read s i hi hv]
          refine readSlots_of_disjoint hwrite hsn (fun hw hsn => h1 ⟨hkind ▸ hw, hsn⟩) ?_
          exact fun hw hsn => h2 ⟨hsn, hw⟩
  | @iinc j x hk hlt hlocal hj hx ho hv =>
    have hread := (hs.read _ _ hj (by simp [hlocal])).trans hx
    rw [hlocal] at hread
    have hfit : localFits slotLocals.length insn.index .int := by
      simpa [localFits, TypeKind.isWide, hs.slotLength] using hlt
    obtain ⟨ls, hwrite, hlen⟩ := writeSlots_eq_some hv hfit
    refine ⟨slots, ls, by simp [TraceJvm.execSlots, hk, loadKind, storeKind, hread, ho, hv, hwrite],
      hholds, hs.slots_eq, ?_, hlen.trans hs.slotLength, hlength⟩
    intro s i hi hne
    by_cases hsn : s = insn.index
    · subst hsn
      obtain rfl : j = i := some.inj (hj.symm.trans hi)
      have hjlt := (List.getElem?_eq_some_iff.mp hx).1
      rw [hlocal, ← hv, readSlots_writeSlots hwrite]
      simp [hjlt]
    · have hji : j ≠ i := by
        rintro rfl
        exact hsn (hz.get_inj hi hj)
      rw [getElem?_set_ne hji, ← hs.read s i hi hne]
      refine readSlots_of_disjoint hwrite hsn (fun hw => ?_) fun hw hsn => ?_
      · rw [hv] at hw
        cases hw
      · obtain ⟨y, hy, -⟩ := hs.holds.locals s i hi hne
        have hlow := readSlots_low ((hs.read s i hi hne).trans hy) hw
        rw [hsn, readSlots_whole hread rfl] at hlow
        cases hlow
  | shuffle hk hform ho hslots =>
    obtain ⟨vs, hvs, hflat⟩ := hform.flatMap_slots hs.holds.stack
    cases hslots.symm.trans hvs
    obtain ⟨hl, hst, hi, -⟩ := loadKind_of_isShuffle hk
    refine ⟨_, slotLocals, ?_, hholds, rfl, hs.read, hs.slotLength, hlength⟩
    simp [TraceJvm.execSlots, hl, hst, hi, hk, ho, hs.slots_eq, hflat]
  | @other pops st push hl hst hi hk heff hhandler hstack hvoid hlen ho hv =>
    have hall := hs.holds.stack
    rw [hstack] at hall
    have hkinds := operands_kinds hall hvoid hlen ho
    obtain ⟨rest, rfl⟩ := ho
    refine ⟨resultSlots push v ++ rest.flatMap Value.slots, slotLocals, ?_, hholds, ?_, hs.read,
      hs.slotLength, hlength⟩
    · simp [TraceJvm.execSlots, hl, hst, hi, hk, heff, hkinds, hs.slots_eq, hv]
    · rw [← hlen, drop_left]
      unfold resultSlots pushValue
      split <;> simp

theorem Rewritten.shuffleForm {curr : ℕ} {st : List TypeKind}
    (h : Rewritten maxLocals swizzle curr insn f.stack insn') (hk : insn.kind.isShuffle)
    (hst : shuffleKinds insn.kind f.stack = some st) :
    ShuffleForm insn.kind insn'.kind f.stack st := by
  obtain ⟨_, _, _, _, hform, rfl⟩ := h.shuffle_inv hk hst
  exact hform

/-- Where the original code takes a step, the rewritten code does. -/
theorem Typed.executed {curr : ℕ} {r : List Slot × List Slot} (hz : Swizzles maxLocals swizzle)
    (hr : Rewritten maxLocals swizzle curr insn f.stack insn') (ht : Typed maxLocals insn f g)
    (hs : SameContents maxLocals swizzle f slots slotLocals stack locals)
    (h : TraceJvm.execSlots insn operands v slots slotLocals = some r) :
    ∃ stack' locals',
      Executed maxLocals swizzle insn insn' f operands v stack locals g stack' locals' := by
  have hslot : ∀ {n : ℕ} {k : TypeKind}, localFits maxLocals n k → ∃ j, swizzle[n]? = some j := by
    intro n k hfit
    refine hz.exists_get ?_
    unfold localFits at hfit
    split at hfit <;> simp at hfit <;> omega
  cases ht with
  | @load k hk hfit hlocal =>
    obtain ⟨j, hj⟩ := hslot hfit
    simp only [TraceJvm.execSlots, hk] at h
    obtain ⟨x, hx, h⟩ := bind_eq_some_iff.mp h
    split at h
    · rename_i ho
      have hread := hs.read _ _ hj (by rw [hlocal]; exact loadKind_ne_void hk)
      rw [hlocal, hx] at hread
      exact ⟨_, _, .load hk hfit hlocal hj hread.symm ho⟩
    · cases h
  | @store k st hl hk hfit hst =>
    obtain ⟨j, hj⟩ := hslot hfit
    simp only [TraceJvm.execSlots, hl, hk] at h
    split at h
    · rename_i x
      split at h
      · rename_i hx
        have htop := hs.holds.stack
        rw [hst] at htop
        cases hstack : stack with
        | nil =>
          rw [hstack] at htop
          cases htop
        | cons y rest =>
          rw [hstack] at htop
          cases htop with
          | cons htop _ =>
            have hkind := htop.resolve_left (storeKind_ne_void hk)
            obtain ⟨t, ht⟩ := hx.2
            rw [hs.slots_eq, hstack, flatMap_cons] at ht
            obtain ⟨rfl, -⟩ := Value.slots_inj (hx.1.trans hkind.symm) ht
            have hlt : j < locals.length := hs.length ▸ (hz.get_lt hj).2
            exact ⟨_, _, .store hl hk hfit hst hj rfl rfl hlt⟩
      · cases h
    · cases h
  | iinc hk hlt hlocal =>
    obtain ⟨j, hj⟩ := hz.exists_get hlt
    simp only [TraceJvm.execSlots, hk, loadKind, storeKind, if_true] at h
    obtain ⟨x, hx, h⟩ := bind_eq_some_iff.mp h
    split at h
    · rename_i ho
      have hread := hs.read _ _ hj (by simp [hlocal])
      rw [hlocal, hx] at hread
      exact ⟨_, _, .iinc hk hlt hlocal hj hread.symm ho.1 ho.2⟩
    · cases h
  | shuffle hk hst =>
    have hform := hr.shuffleForm hk hst
    obtain ⟨vs, hvs, -⟩ := hform.flatMap_slots hs.holds.stack
    obtain ⟨hl, hst', hi, -⟩ := loadKind_of_isShuffle hk
    simp only [TraceJvm.execSlots, hl, hst', hi, hk, if_true, if_false] at h
    split at h
    · rename_i ho
      exact ⟨_, _, .shuffle hk hform ho hvs⟩
    · cases h
  | @other pops st push hl hst hi hk hj heff hhandler hstack hvoid =>
    simp only [TraceJvm.execSlots, hl, hst, hi, hk, heff, if_false, Bool.false_eq_true,
      bind_some] at h
    split at h
    · rename_i ho
      have hlen : operands.length = pops.length := by
        rw [← ho.1, length_map]
      have hall := hs.holds.stack
      rw [hstack] at hall
      have htake : pops.length ≤ stack.length := by
        have := hall.length_eq
        simp only [length_append] at this
        omega
      have hkinds : (stack.take pops.length).map Value.kind = pops :=
        operands_kinds hall hvoid (by simp [htake]) ( take_prefix _ _)
      have hflat : operands.flatMap Value.slots <+:
          (stack.take pops.length).flatMap Value.slots ++
            (stack.drop pops.length).flatMap Value.slots := by
        rw [← flatMap_append, take_append_drop, ← hs.slots_eq]
        exact ho.2.1
      have hops := flatMap_slots_inj (ho.1.trans hkinds.symm) hflat
      have hprefix : operands <+: stack := hops ▸ take_prefix _ _
      exact ⟨_, _, .other hl hst hi hk heff hhandler hstack hvoid hlen hprefix ho.2.2⟩
    · cases h

def Unwidened (m : CodeMethod) (T : ℕ → Option KindFrame) (swizzle : List ℕ) (o : SlotFrame)
    (n : JavaFrame) : Prop :=
  o.pc = n.pc ∧
    ∃ f, T n.pc = some f ∧ SameContents m.maxLocals swizzle f o.stack o.locals n.stack n.locals

section Step

variable {m : CodeMethod} {T : ℕ → Option KindFrame} {A : CodeAnalysis} {o o' : SlotFrame}
  {n n' : JavaFrame} {e : FrameEvent}
  (hz : Swizzles m.maxLocals swizzle) (ht : Typing m T)
  (hA : ∀ i insn f, m.code[i]? = some insn → T i = some f →
    ∃ insn' r, AnalysedAt m swizzle A i insn f insn' r)

include ht in
theorem unwidened_target {i t : ℕ} (hi : m.code[i]? = some insn) (hf : T i = some f)
    (hg : typeStep m.maxLocals insn f = some g)
    (ht' : t ∈ insn.branchTargets ∨ insn.kind.terminates = false ∧ t = i + 1)
    (hs : SameContents m.maxLocals swizzle g slots slotLocals stack locals) :
    Unwidened m T swizzle ⟨t, slots, slotLocals⟩ ⟨t, stack, locals⟩ := by
  obtain ⟨g', hg', hbranch, hnext⟩ := ht.step i insn f hi hf
  cases hg.symm.trans hg'
  rcases ht' with hmem | ⟨hterm, rfl⟩
  · obtain ⟨d, hd, hassign⟩ := hbranch t hmem
    exact ⟨rfl, d, hd, hs.assignable hassign⟩
  · obtain ⟨d, hd, hassign⟩ := hnext hterm
    exact ⟨rfl, d, hd, hs.assignable hassign⟩

include ht in
theorem unwidened_caught {e : ExceptionEntry} {x : ℕ} (h : Unwidened m T swizzle o n)
    (he : e ∈ m.exceptionTable) (hcov : e.covers n.pc) :
    Unwidened m T swizzle ⟨e.handlerInsn, (Value.reference (some x)).slots, o.locals⟩
      ⟨e.handlerInsn, [.reference (some x)], n.locals⟩ := by
  obtain ⟨-, f, hf, hs⟩ := h
  obtain ⟨d, hd, hassign⟩ := ht.handlers n.pc f hf e he hcov
  have hcaught : SameContents m.maxLocals swizzle ⟨[.reference], f.locals⟩
      (Value.reference (some x)).slots o.locals [.reference (some x)] n.locals :=
    { hs with holds := ⟨.cons (.inr rfl) .nil, hs.holds.locals⟩, slots_eq := by simp }
  exact ⟨rfl, d, hd, hcaught.assignable hassign⟩

include hz ht hA in
theorem frameStep_slotStep (h : Unwidened m T swizzle o n)
    (hstep : frameStep m.maxLocals m.exceptionTable A.code n e = some n') :
    ∃ o', slotStep m.exceptionTable m.code o e = some o' ∧ Unwidened m T swizzle o' n' := by
  obtain ⟨hpc, f, hf, hs⟩ := id h
  obtain ⟨insn, hi⟩ := ht.inside _ f hf
  obtain ⟨insn', r, hana⟩ := hA _ insn f hi hf
  have hlt := (List.getElem?_eq_some_iff.mp hi).1
  cases e with
  | caught e x =>
    simp only [frameStep] at hstep
    split at hstep
    · rename_i hcov
      cases hstep
      refine ⟨_, ?_, unwidened_caught ht h hcov.1 hcov.2.1⟩
      rw [slotStep, if_pos ⟨hcov.1, hpc ▸ hcov.2.1, hpc ▸ hlt⟩]
    · cases hstep
  | proceed operands v target =>
    simp only [frameStep, hana.output, bind_some] at hstep
    split at hstep
    · rename_i hsucc
      obtain ⟨⟨stack', locals'⟩, hexec, rfl⟩ := map_eq_some_iff.mp hstep
      obtain ⟨g, hg, -⟩ := ht.step _ insn f hi hf
      have hty := typeStep_typed hg
      have hto := (hana.rewritten.mem_successors hty).mp hsucc
      obtain ⟨slots', slotLocals', hslots, hsame⟩ :=
        (hana.rewritten.executed hz hty hexec).execSlots hz hs
      refine ⟨⟨target, slots', slotLocals'⟩, ?_, unwidened_target ht hi hf hg hto hsame⟩
      rw [slotStep, hpc, hi, bind_some, if_pos hto, hslots]
      rfl
    · cases hstep

include hz ht hA in
theorem slotStep_frameStep (h : Unwidened m T swizzle o n)
    (hstep : slotStep m.exceptionTable m.code o e = some o') :
    ∃ n', frameStep m.maxLocals m.exceptionTable A.code n e = some n' ∧
      Unwidened m T swizzle o' n' := by
  obtain ⟨hpc, f, hf, hs⟩ := id h
  obtain ⟨insn, hi⟩ := ht.inside _ f hf
  obtain ⟨insn', r, hana⟩ := hA _ insn f hi hf
  have hlt := (List.getElem?_eq_some_iff.mp hana.output).1
  cases e with
  | caught e x =>
    simp only [slotStep] at hstep
    split at hstep
    · rename_i hcov
      rw [hpc] at hcov
      cases hstep
      refine ⟨_, ?_, unwidened_caught ht h hcov.1 hcov.2.1⟩
      rw [frameStep, if_pos ⟨hcov.1, hcov.2.1, hlt⟩]
    · cases hstep
  | proceed operands v target =>
    simp only [slotStep, hpc, hi, bind_some] at hstep
    split at hstep
    · rename_i hto
      obtain ⟨⟨slots', slotLocals'⟩, hexec, rfl⟩ := map_eq_some_iff.mp hstep
      obtain ⟨g, hg, -⟩ := ht.step _ insn f hi hf
      have hty := typeStep_typed hg
      obtain ⟨stack', locals', hdone⟩ := hty.executed hz hana.rewritten hs hexec
      obtain ⟨slots₂, slotLocals₂, hslots, hsame⟩ := hdone.execSlots hz hs
      cases hexec.symm.trans hslots
      refine ⟨⟨target, stack', locals'⟩, ?_, unwidened_target ht hi hf hg hto hsame⟩
      rw [frameStep, hana.output, bind_some,
        if_pos ((hana.rewritten.mem_successors hty).mpr hto), hdone.execInsn_eq hz hana.rewritten]
      rfl
    · cases hstep

end Step

/-- The descriptors of `this` and of the arguments. -/
def CodeMethod.entryDescriptors (m : CodeMethod) : List FieldDescriptor :=
  (if m.isStatic then [] else [.ofKind .reference]) ++ m.descriptor.args

theorem CodeMethod.entrySlots_eq (m : CodeMethod) :
    m.entrySlots = argSlots m.maxLocals 0 m.entryDescriptors := by
  unfold CodeMethod.entrySlots CodeMethod.entryDescriptors
  cases m.isStatic with
  | true => rfl
  | false =>
    rcases Nat.eq_zero_or_pos m.maxLocals with hz | hpos
    · simp [hz, argSlots]
    · have hne : m.maxLocals ≠ 0 := by omega
      simp [hne, hpos, argSlots, FieldDescriptor.isWide, FieldDescriptor.ofKind, TypeKind.isWide]

theorem CodeMethod.entryKinds_eq (m : CodeMethod) :
    m.entryKinds = m.entryDescriptors.map FieldDescriptor.reprKind := by
  unfold CodeMethod.entryKinds CodeMethod.entryDescriptors
  cases m.isStatic <;> simp [FieldDescriptor.reprKind, FieldDescriptor.ofKind,
    TypeKind.representable]

theorem readSlots_argumentSlots {maxLocals j n s : ℕ} {ds : List FieldDescriptor}
    {l : List ℕ} {args : List Value} {pre rest : List Slot}
    (h : argSlots maxLocals j ds = some l)
    (hk : args.map Value.kind = ds.map FieldDescriptor.reprKind) (hpre : pre.length = j)
    (hs : l[n]? = some s) :
    ∃ v, args[n]? = some v ∧ readSlots (pre ++ argumentSlots args ++ rest) s v.kind = some v := by
  induction ds generalizing j l args pre n with
  | nil =>
    obtain rfl : [] = l := by simpa [argSlots] using h
    simp at hs
  | cons d ds ih =>
    cases args with
    | nil => simp at hk
    | cons x args =>
      simp only [map_cons, cons.injEq] at hk
      have hwide : d.isWide = x.kind.isWide := by rw [hk.1, d.isWide_eq]
      have hcat : pre ++ argumentSlots (x :: args) ++ rest =
          (pre ++ x.slots.reverse) ++ argumentSlots args ++ rest := by
        simp [argumentSlots]
      have hdone : ∀ (k : ℕ) (l' : List ℕ), x.slots.length = k →
          argSlots maxLocals (j + k) ds = some l' → l = j :: l' →
          ∃ v, (x :: args)[n]? = some v ∧
            readSlots (pre ++ argumentSlots (x :: args) ++ rest) s v.kind = some v := by
        rintro k l' hlen hl' rfl
        rw [hcat]
        cases n with
        | zero =>
          obtain rfl : j = s := by simpa using hs
          refine ⟨x, rfl, ?_⟩
          subst hpre
          unfold readSlots Value.slots
          split <;> simp [*]
        | succ n =>
          have hpre' : (pre ++ x.slots.reverse).length = j + k := by simp [hpre, hlen]
          obtain ⟨v, hv, hread⟩ := ih hl' hk.2 hpre' (by simpa using hs)
          exact ⟨v, by simpa using hv, hread⟩
      simp only [argSlots] at h
      split at h
      · split at h
        · rename_i hw
          split at h
          · obtain ⟨l', hl', rfl⟩ := map_eq_some_iff.mp h
            exact hdone 2 l' (by simp [Value.slots, ← hwide, hw]) hl' rfl
          · cases h
        · rename_i hw
          obtain ⟨l', hl', rfl⟩ := map_eq_some_iff.mp h
          exact hdone 1 l' (by simp [Value.slots, ← hwide, hw]) hl' rfl
      · cases h

/-- A call passes the arguments in the first slots of the original frame, and in the first cells of
the rewritten one. -/
theorem unwidened_entry {m : CodeMethod} {T : ℕ → Option KindFrame} {kinds : List TypeKind}
    {args rest : List Value} {slotRest : List Slot} (ht : Typing m T)
    (he : m.localsOnMethodEntry = .ok (swizzle, kinds))
    (hargs : args.map Value.kind = m.entryKinds) (hlen : (args ++ rest).length = m.maxLocals)
    (hslots : (argumentSlots args ++ slotRest).length = m.maxLocals) :
    Unwidened m T swizzle ⟨0, [], argumentSlots args ++ slotRest⟩ ⟨0, [], args ++ rest⟩ := by
  obtain ⟨hz, -, slots, hentry, hmap⟩ := localsOnMethodEntry_swizzles he
  obtain ⟨f, hf, hassign⟩ := ht.entry
  have harg : ∀ s j : ℕ, swizzle[s]? = some j →
      (KindFrame.ofDeclared m.entryFrame).locals s ≠ .void →
      ∃ v, args[j]? = some v ∧ v.kind = (KindFrame.ofDeclared m.entryFrame).locals s ∧
        readSlots (argumentSlots args ++ slotRest) s v.kind = some v := by
    intro s j hs hv
    obtain ⟨n, hn, hk⟩ := entryFrame_slot hentry hv
    obtain rfl : j = n := some.inj (hs.symm.trans (hmap n s hn))
    rw [m.entrySlots_eq] at hentry
    rw [m.entryKinds_eq] at hargs
    obtain ⟨v, hv', hread⟩ : ∃ v, args[j]? = some v ∧
        readSlots ([] ++ argumentSlots args ++ slotRest) s v.kind = some v :=
      readSlots_argumentSlots hentry hargs rfl hn
    refine ⟨v, hv', ?_, by simpa using hread⟩
    rw [m.entryKinds_eq, ← hargs, getElem?_map, hv'] at hk
    exact some.inj hk
  have hget : ∀ {j : ℕ} {v : Value}, args[j]? = some v → (args ++ rest)[j]? = some v := by
    intro j v hj
    rw [List.getElem?_append_left (List.getElem?_eq_some_iff.mp hj).1, hj]
  have hsame : SameContents m.maxLocals swizzle (.ofDeclared m.entryFrame) []
      (argumentSlots args ++ slotRest) [] (args ++ rest) := by
    refine ⟨⟨by simp [KindFrame.ofDeclared, CodeMethod.entryFrame], fun s j hs hv => ?_⟩, by simp,
      fun s j hs hv => ?_, hslots, hlen⟩
    · obtain ⟨v, hv', hk, -⟩ := harg s j hs hv
      exact ⟨v, hget hv', hk⟩
    · obtain ⟨v, hv', hk, hread⟩ := harg s j hs hv
      rw [← hk, hread, hget hv']
  exact ⟨rfl, f, hf, hsame.assignable hassign⟩

/-- The rewriting preserves the meaning of every accepted method that the verifier admits. The
swizzle map gives different numbers to different locals, the first ones, in order, to the
arguments; and the original and the rewritten code, called with the same arguments, can do exactly
the same sequences of steps. -/
theorem rewriting_simulates {fuel : ℕ} {m : CodeMethod} {T : ℕ → Option KindFrame}
    {A : CodeAnalysis} (hv : Verified m T) (h : analyzeMethodCode fuel m = some (.ok A)) :
    ∃ swizzle kinds slots, m.localsOnMethodEntry = .ok (swizzle, kinds) ∧
      swizzle.Nodup ∧ swizzle.length = m.maxLocals ∧
      m.entrySlots = some slots ∧ slots.length = m.entryKinds.length ∧
      (∀ n s : ℕ, slots[n]? = some s → swizzle[s]? = some n) ∧
      ∀ (args rest : List Value) (slotRest : List Slot), args.map Value.kind = m.entryKinds →
        (args ++ rest).length = m.maxLocals →
        (argumentSlots args ++ slotRest).length = m.maxLocals →
        ∀ w : List FrameEvent,
          (∀ o, run (slotStep m.exceptionTable m.code) ⟨0, [], argumentSlots args ++ slotRest⟩ w =
              some o →
            ∃ n, run (frameStep m.maxLocals m.exceptionTable A.code) ⟨0, [], args ++ rest⟩ w =
              some n ∧ Unwidened m T swizzle o n) ∧
          ∀ n, run (frameStep m.maxLocals m.exceptionTable A.code) ⟨0, [], args ++ rest⟩ w =
              some n →
            ∃ o, run (slotStep m.exceptionTable m.code) ⟨0, [], argumentSlots args ++ slotRest⟩ w =
              some o ∧ Unwidened m T swizzle o n := by
  obtain ⟨swizzle, kinds, he, hA⟩ := hv.analysedAt h
  obtain ⟨hz, -, slots, hslots, hmap⟩ := localsOnMethodEntry_swizzles he
  refine ⟨swizzle, kinds, slots, he, hz.nodup, hz.length, hslots, (m.entrySlots_bounds hslots).2.2,
    hmap, fun args rest slotRest hargs hlen hslotLen w => ⟨fun o ho => ?_, fun n hn => ?_⟩⟩
  · have hsim : ∀ o n e o', Unwidened m T swizzle o n →
        slotStep m.exceptionTable m.code o e = some o' →
        ∃ n', frameStep m.maxLocals m.exceptionTable A.code n e = some n' ∧
          Unwidened m T swizzle o' n' :=
      fun o n e o' hR hstep => slotStep_frameStep hz hv.typing hA hR hstep
    exact run_simulation hsim (unwidened_entry hv.typing he hargs hlen hslotLen) ho
  · have hsim : ∀ n o e n', Unwidened m T swizzle o n →
        frameStep m.maxLocals m.exceptionTable A.code n e = some n' →
        ∃ o', slotStep m.exceptionTable m.code o e = some o' ∧ Unwidened m T swizzle o' n' :=
      fun n o e n' hR hstep => frameStep_slotStep hz hv.typing hA hR hstep
    exact run_simulation hsim (unwidened_entry hv.typing he hargs hlen hslotLen) hn

theorem rewriting_simulates_storeLoop :
    ∃ A swizzle o n, analyzeMethodCode 1 storeLoop = some (.ok A) ∧
      run (slotStep storeLoop.exceptionTable storeLoop.code)
        ⟨0, [], [.high (.long 5), .low (.long 5), .whole (.int 3)]⟩
        [.proceed [] (.int 0) 1, .proceed [.int 0] (.int 0) 2] = some o ∧
      run (frameStep storeLoop.maxLocals storeLoop.exceptionTable A.code)
        ⟨0, [], [.long 5, .int 7, .int 3]⟩
        [.proceed [] (.int 0) 1, .proceed [.int 0] (.int 0) 2] = some n ∧
      Unwidened storeLoop (kindsAt 3 storeLoop.code [storeLoop.entryFrame]) swizzle o n := by
  have henc : storeLoop.encodes [.sameFrame 0] := .inl rfl
  have hv : Verified storeLoop (kindsAt 3 storeLoop.code [storeLoop.entryFrame]) :=
    .table rfl henc rfl storeLoop_consistent rfl
  have hA : analyzeMethodCode 1 storeLoop = some (.ok _) := rfl
  obtain ⟨swizzle, -, -, -, -, -, -, -, -, hruns⟩ := rewriting_simulates hv hA
  obtain ⟨n, hn, hsame⟩ := (hruns [.long 5] [.int 7, .int 3] [.whole (.int 3)] rfl rfl rfl
    [.proceed [] (.int 0) 1, .proceed [.int 0] (.int 0) 2]).1 _ rfl
  exact ⟨_, swizzle, _, n, hA, rfl, hn, hsame⟩

/-- A method that the verifier would refuse: it jumps with a `long` on the stack to a frame that
declares two `int`s, and drops them. -/
def mislabelledPop : CodeMethod where
  maxStack := 2
  maxLocals := 0
  code := [{ kind := .lconst, originalPc := 0 }, { kind := .goto, originalPc := 1, index := 2 },
    { kind := .pop2, originalPc := 4 }, { kind := .returnVoid, originalPc := 5 }]
  exceptionTable := []
  lvt := []
  stackMapTable := some [255, 0, 4, 0, 0, 0, 2, 1, 1]
  pc_zero := by simp
  pc_lt := by decide
  isStatic := true
  isCtor := false
  descriptor := .empty
  missingSmt := false
  missing_eq := nofun

/-- The analyser accepts it, since it does not compare a frame with the state that flows into it.
The original `pop2` takes the `long`; the rewritten one takes two cells where there is one. -/
theorem mislabelledPop_diverges :
    ∃ A, analyzeMethodCode 1 mislabelledPop = some (.ok A) ∧
      run (slotStep mislabelledPop.exceptionTable mislabelledPop.code) ⟨0, [], []⟩
        [.proceed [] (.long 0) 1, .proceed [] (.int 0) 2, .proceed [] (.int 0) 3] =
        some ⟨3, [], []⟩ ∧
      run (frameStep mislabelledPop.maxLocals mislabelledPop.exceptionTable A.code) ⟨0, [], []⟩
        [.proceed [] (.long 0) 1, .proceed [] (.int 0) 2, .proceed [] (.int 0) 3] = none :=
  ⟨_, rfl, rfl, rfl⟩

end TraceJvm
