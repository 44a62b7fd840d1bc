import TraceJvm.FrameMachine

/-! Activations of rewritten code against the frames of the type checker: a rewritten instruction
that starts in a frame of the right kinds ends in one. -/
namespace TraceJvm

open Option

/-- The form that the analysis leaves an instruction in, when the kinds of the stack before it are
`st`. -/
inductive Rewritten (maxLocals : ℕ) (swizzle : List ℕ) (curr : ℕ) (insn : Instruction)
    (st : List TypeKind) : Instruction → Prop where
  | access {j : ℕ} {before after : TosKind}
      (hk : (loadKind insn.kind).isSome ∨ (storeKind insn.kind).isSome)
      (hj : swizzle[insn.index]? = some j) :
      Rewritten maxLocals swizzle curr insn st
        { insn with
          index := j, delta := (maxLocals : ℤ) - j, tosBefore := before, tosAfter := after }
  | iinc {j : ℕ} {delta : ℤ} {before after : TosKind} (hk : insn.kind = .iinc)
      (hj : swizzle[insn.index]? = some j) :
      Rewritten maxLocals swizzle curr insn st
        { insn with index := j, delta := delta, tosBefore := before, tosAfter := after }
  | shuffle {maxStack : ℕ} {st' : List TypeKind} {kind : InsnKind} {delta : ℤ}
      {before after : TosKind} (hk : insn.kind.isShuffle)
      (hst : analyzeShuffle maxStack insn.kind st = .ok (st', kind)) :
      Rewritten maxLocals swizzle curr insn st
        { insn with kind := kind, delta := delta, tosBefore := before, tosAfter := after }
  | other {delta : ℤ} {before after : TosKind} (hl : loadKind insn.kind = none)
      (hs : storeKind insn.kind = none) (hi : insn.kind ≠ .iinc) (hk : insn.kind.isShuffle = false)
      (hd : insn.kind.hasBranchDelta → delta = ((insn.index : ℤ) - curr) * sizeofInsn) :
      Rewritten maxLocals swizzle curr insn st
        { insn with delta := delta, tosBefore := before, tosAfter := after }

variable {insn insn' : Instruction}

theorem Analyzed.rewritten {env : AnalysisEnv} {curr : ℕ}
    {before after : TosKind} {c : AnalysisCtx} {st ls : List TypeKind}
    (h : Analyzed env true curr { insn with tosBefore := before } c st ls insn') :
    Rewritten env.maxLocals env.swizzle curr insn c.stack { insn' with tosAfter := after } := by
  cases h with
  | load hk hj hindex hlocal =>
    subst hindex
    exact .access (.inl (by simp [hk])) hj
  | store hl hk hst hj hindex =>
    subst hindex
    exact .access (.inr (by simp [hk])) hj
  | iinc hk hj hindex =>
    subst hindex
    exact .iinc hk hj
  | put hk hst =>
    dsimp only at hk
    refine .other ?_ ?_ ?_ ?_ ?_
    all_goals rcases hk with hk | hk <;> rw [hk] <;> simp [loadKind, storeKind, InsnKind.isShuffle,
      InsnKind.hasBranchDelta]
  | shuffle hk hst => exact .shuffle hk hst
  | effect hl hs hi hp hk he hst => exact .other hl hs hi hk fun hd => if_pos hd

def HoldsKind (k : TypeKind) (v : Value) : Prop := k = .void ∨ v.kind = k

structure HoldsFrame (swizzle : List ℕ) (f : KindFrame) (stack locals : List Value) : Prop where
  stack : List.Forall₂ HoldsKind f.stack stack
  locals : ∀ s j : ℕ, swizzle[s]? = some j → f.locals s ≠ .void →
    ∃ v : Value, locals[j]? = some v ∧ v.kind = f.locals s

variable {swizzle : List ℕ} {f g : KindFrame}

theorem HoldsFrame.assignable {stack locals : List Value}
    (h : HoldsFrame swizzle f stack locals) (ha : f.Assignable g) :
    HoldsFrame swizzle g stack locals := by
  constructor
  · have hs := h.stack
    have has := ha.stack
    generalize f.stack = fs at hs has
    generalize g.stack = gs at has
    clear h ha
    induction has generalizing stack with
    | nil =>
      cases hs
      exact .nil
    | cons hab _ ih =>
      cases hs with
      | cons hv hs =>
        refine .cons ?_ (ih hs)
        rcases hab with rfl | rfl
        · exact hv
        · exact .inl rfl
  · intro s j hs hv
    rcases ha.locals s with hl | hl
    · exact absurd hl hv
    · rw [hl] at hv ⊢
      exact h.locals s j hs hv

variable {kind : InsnKind}

/-- The stack instructions move the slots of related stacks alike. -/
theorem shuffleSlots_forall₂ {α β : Type*} {R : α → β → Prop} {l l' : List α}
    {m : List β} (h : List.Forall₂ R l m) (hl : shuffleSlots kind l = some l') :
    ∃ m', shuffleSlots kind m = some m' ∧ List.Forall₂ R l' m' := by
  unfold shuffleSlots at hl
  split at hl
  · cases hl
    rcases h with _ | ⟨ha, h⟩
    exact ⟨_, rfl, .cons ha (.cons ha h)⟩
  · cases hl
    rcases h with _ | ⟨ha, _ | ⟨hb, h⟩⟩
    exact ⟨_, rfl, .cons ha (.cons hb (.cons ha h))⟩
  · cases hl
    rcases h with _ | ⟨ha, _ | ⟨hb, _ | ⟨hc, h⟩⟩⟩
    exact ⟨_, rfl, .cons ha (.cons hb (.cons hc (.cons ha h)))⟩
  · cases hl
    rcases h with _ | ⟨ha, _ | ⟨hb, h⟩⟩
    exact ⟨_, rfl, .cons ha (.cons hb (.cons ha (.cons hb h)))⟩
  · cases hl
    rcases h with _ | ⟨ha, _ | ⟨hb, _ | ⟨hc, h⟩⟩⟩
    exact ⟨_, rfl, .cons ha (.cons hb (.cons hc (.cons ha (.cons hb h))))⟩
  · cases hl
    rcases h with _ | ⟨ha, _ | ⟨hb, _ | ⟨hc, _ | ⟨hd, h⟩⟩⟩⟩
    exact ⟨_, rfl, .cons ha (.cons hb (.cons hc (.cons hd (.cons ha (.cons hb h)))))⟩
  · cases hl
    rcases h with _ | ⟨ha, h⟩
    exact ⟨_, rfl, h⟩
  · cases hl
    rcases h with _ | ⟨ha, _ | ⟨hb, h⟩⟩
    exact ⟨_, rfl, h⟩
  · cases hl
    rcases h with _ | ⟨ha, _ | ⟨hb, h⟩⟩
    exact ⟨_, rfl, .cons hb (.cons ha h)⟩
  · cases hl

theorem isShuffle_of_shuffleSlots {α : Type*} {l m : List α}
    (h : shuffleSlots kind l = some m) : kind.isShuffle := by
  unfold shuffleSlots at h
  split at h <;> first | rfl | cases h

theorem storeKind_of_loadKind {k : TypeKind} (h : loadKind kind = some k) :
    storeKind kind = none := by
  cases kind <;> first | rfl | cases h

theorem loadKind_of_isShuffle (h : kind.isShuffle) :
    loadKind kind = none ∧ storeKind kind = none ∧ kind ≠ .iinc ∧ kind.terminates = false ∧
      kind.hasBranchDelta = false ∧ kind ≠ .tableswitch ∧ kind ≠ .lookupswitch := by
  cases kind <;> first | (cases h; done) | simp [loadKind, storeKind, InsnKind.terminates,
    InsnKind.hasBranchDelta]

theorem accesses_plain (h : (loadKind kind).isSome ∨ (storeKind kind).isSome ∨ kind = .iinc) :
    kind.terminates = false ∧ kind.hasBranchDelta = false ∧ kind ≠ .tableswitch ∧
      kind ≠ .lookupswitch ∧ kind ≠ .jsr := by
  rcases h with h | h | rfl
  · cases kind <;> first | (cases h; done) | exact ⟨rfl, rfl, nofun, nofun, nofun⟩
  · cases kind <;> first | (cases h; done) | exact ⟨rfl, rfl, nofun, nofun, nofun⟩
  · exact ⟨rfl, rfl, nofun, nofun, nofun⟩

theorem branchTargets_eq {insn : Instruction} (hj : insn.kind ≠ .jsr) :
    insn.branchTargets = if insn.kind.hasBranchDelta then [insn.index]
      else if insn.kind = .tableswitch ∨ insn.kind = .lookupswitch then insn.switchTargets
      else [] := by
  obtain ⟨kind⟩ := insn
  cases kind <;> first | rfl | exact absurd rfl hj

inductive Typed (maxLocals : ℕ) (insn : Instruction) (f : KindFrame) : KindFrame → Prop where
  | load {k : TypeKind} (hk : loadKind insn.kind = some k)
      (hfit : localFits maxLocals insn.index k) (hlocal : f.locals insn.index = k) :
      Typed maxLocals insn f ⟨k :: f.stack, f.locals⟩
  | store {k : TypeKind} {st : List TypeKind} (hl : loadKind insn.kind = none)
      (hk : storeKind insn.kind = some k) (hfit : localFits maxLocals insn.index k)
      (hst : f.stack = k :: st) :
      Typed maxLocals insn f ⟨st, storeLocal insn.index k f.locals⟩
  | iinc (hk : insn.kind = .iinc) (hlt : insn.index < maxLocals)
      (hlocal : f.locals insn.index = .int) : Typed maxLocals insn f f
  | shuffle {st : List TypeKind} (hk : insn.kind.isShuffle)
      (hst : shuffleKinds insn.kind f.stack = some st) : Typed maxLocals insn f ⟨st, f.locals⟩
  | other {pops st : List TypeKind} {push : TypeKind} (hl : loadKind insn.kind = none)
      (hs : storeKind insn.kind = none) (hi : insn.kind ≠ .iinc) (hk : insn.kind.isShuffle = false)
      (hj : insn.kind ≠ .jsr) (heff : jvmsEffect insn = some (pops, push))
      (he : handlerEffect insn = some (pops.length, push)) (hst : f.stack = pops ++ st)
      (hv : .void ∉ pops) :
      Typed maxLocals insn f ⟨pushKind push st, f.locals⟩

variable {maxLocals : ℕ}

theorem typeStep_typed {insn : Instruction}
    (h : typeStep maxLocals insn f = some g) : Typed maxLocals insn f g := by
  unfold typeStep at h
  split at h
  · rename_i k _ hk
    split at h
    · rename_i hf
      cases h
      exact .load hk hf.1 hf.2
    · cases h
  · rename_i k hl hk
    split at h
    · rename_i hfit
      obtain ⟨st, hst, rfl⟩ := map_eq_some_iff.mp h
      exact .store hl hk hfit (takeKinds_eq_some.mp hst).1
    · cases h
  · rename_i hl hs
    split at h
    · cases h
    rename_i hj
    split at h
    · rename_i hi
      split at h
      · rename_i hf
        cases h
        exact .iinc hi hf.1 hf.2
      · cases h
    rename_i hi
    split at h
    · rename_i hp
      obtain ⟨st, hst, rfl⟩ := map_eq_some_iff.mp h
      obtain ⟨hst, hv⟩ := takeKinds_eq_some.mp hst
      have he : handlerEffect insn = some ([insn.field.reprKind, .reference].length, .void) := by
        simp [handlerEffect, hp]
      exact (show Typed maxLocals insn f ⟨pushKind .void st, f.locals⟩ from
        .other hl hs hi (by rw [hp]; rfl) (fun hk => hj (.inl hk)) (by simp [jvmsEffect, hp]) he hst
          hv)
    split at h
    · rename_i hp
      obtain ⟨st, hst, rfl⟩ := map_eq_some_iff.mp h
      obtain ⟨hst, hv⟩ := takeKinds_eq_some.mp hst
      have he : handlerEffect insn = some ([insn.field.reprKind].length, .void) := by
        simp [handlerEffect, hp]
      exact (show Typed maxLocals insn f ⟨pushKind .void st, f.locals⟩ from
        .other hl hs hi (by rw [hp]; rfl) (fun hk => hj (.inl hk)) (by simp [jvmsEffect, hp]) he hst
          hv)
    split at h
    · rename_i hk
      obtain ⟨st, hst, rfl⟩ := map_eq_some_iff.mp h
      exact .shuffle hk hst
    · rename_i hpf hps hk
      obtain ⟨⟨pops, push⟩, he, h⟩ := bind_eq_some_iff.mp h
      obtain ⟨st, hst, rfl⟩ := map_eq_some_iff.mp h
      obtain ⟨hst, hv⟩ := takeKinds_eq_some.mp hst
      have heff : jvmsEffect insn = some (pops, push) := by
        rw [jvmsEffect, if_neg hj, if_neg hpf, if_neg hps, he]
      have he := handlerEffect_of_stackEffect (not_or.mp hj) he
      exact .other hl hs hi (by simpa using hk) (fun hk => hj (.inl hk)) heff he hst hv

theorem Typed.ne_jsr {insn : Instruction} (h : Typed maxLocals insn f g) : insn.kind ≠ .jsr := by
  intro hj
  cases h with
  | load hk _ _ | store hl hk _ _ | iinc hk _ _ | shuffle hk _ =>
    rw [hj] at hk
    cases hk
  | other _ _ _ _ hne _ _ _ _ => exact hne hj

theorem Typed.shuffleKinds_eq {insn : Instruction}
    (h : Typed maxLocals insn f g) (hk : insn.kind.isShuffle) :
    ∃ st, shuffleKinds insn.kind f.stack = some st := by
  obtain ⟨hl, hs, hi, -⟩ := loadKind_of_isShuffle hk
  cases h with
  | load hl' _ _ => simp [hl] at hl'
  | store _ hs' _ _ => simp [hs] at hs'
  | iinc hi' _ _ => exact absurd hi' hi
  | shuffle _ hst => exact ⟨_, hst⟩
  | other _ _ _ hk' _ _ _ _ _ => simp [hk] at hk'

/-- A branch of rewritten code goes where the branch of the original code goes. -/
theorem Rewritten.mem_successors {maxLocals curr t : ℕ}
    (h : Rewritten maxLocals swizzle curr insn f.stack insn') (ht : Typed maxLocals insn f g) :
    t ∈ insn'.successors curr ↔
      t ∈ insn.branchTargets ∨ insn.kind.terminates = false ∧ t = curr + 1 := by
  have hplain : ∀ insn₁ : Instruction, insn₁.kind.terminates = false →
      insn₁.kind.hasBranchDelta = false → insn₁.kind ≠ .tableswitch → insn₁.kind ≠ .lookupswitch →
      (t ∈ insn₁.successors curr ↔ t = curr + 1) := by
    intro insn₁ h1 h2 h3 h4
    simp [Instruction.successors, h1, h2, h3, h4]
  rw [branchTargets_eq ht.ne_jsr]
  cases h with
  | access hk _ =>
    obtain ⟨h1, h2, h3, h4, -⟩ := accesses_plain (hk.imp_right .inl)
    refine (hplain _ ?_ ?_ ?_ ?_).trans (by simp [h1, h2, h3, h4])
    exacts [h1, h2, h3, h4]
  | iinc hk _ =>
    obtain ⟨h1, h2, h3, h4, -⟩ := accesses_plain (.inr (.inr hk))
    refine (hplain _ ?_ ?_ ?_ ?_).trans (by simp [h1, h2, h3, h4])
    exacts [h1, h2, h3, h4]
  | shuffle hk hst =>
    obtain ⟨st, hform⟩ := ht.shuffleKinds_eq hk
    have hsh := isShuffle_of_shuffleSlots (analyzeShuffle_form hst hform).2.slots_eq
    obtain ⟨-, -, -, h1, h2, h3, h4⟩ := loadKind_of_isShuffle hk
    obtain ⟨-, -, -, h1', h2', h3', h4'⟩ := loadKind_of_isShuffle hsh
    refine (hplain _ ?_ ?_ ?_ ?_).trans (by simp [h1, h2, h3, h4])
    exacts [h1', h2', h3', h4']
  | other hl hs hi hk hd =>
    have hindex : ((curr : ℤ) + ((insn.index : ℤ) - curr) * sizeofInsn / sizeofInsn).toNat =
        insn.index := by
      rw [Int.mul_ediv_cancel _ (by decide)]
      omega
    have hfirst : (if insn.kind.hasBranchDelta then
        [((curr : ℤ) + ‹ℤ› / sizeofInsn).toNat] else
        if insn.kind = .tableswitch ∨ insn.kind = .lookupswitch then insn.switchTargets else []) =
        if insn.kind.hasBranchDelta then [insn.index]
        else if insn.kind = .tableswitch ∨ insn.kind = .lookupswitch then insn.switchTargets
        else [] := by
      split
      · rename_i hb
        rw [hd hb, hindex]
      · rfl
    simp only [Instruction.successors]
    rw [hfirst, List.mem_append]
    cases insn.kind.terminates <;> simp

variable {maxLocals curr : ℕ} {st st' : List TypeKind}

theorem Rewritten.access_inv (h : Rewritten maxLocals swizzle curr insn st insn')
    (hk : (loadKind insn.kind).isSome ∨ (storeKind insn.kind).isSome) :
    ∃ (j : ℕ) (before after : TosKind), swizzle[insn.index]? = some j ∧ insn' = { insn with
      index := j, delta := (maxLocals : ℤ) - j, tosBefore := before, tosAfter := after } := by
  cases h with
  | access _ hj => exact ⟨_, _, _, hj, rfl⟩
  | iinc hi _ => simp [hi, loadKind, storeKind] at hk
  | shuffle hsh _ =>
    obtain ⟨hl, hs, -⟩ := loadKind_of_isShuffle hsh
    simp [hl, hs] at hk
  | other hl hs _ _ _ => simp [hl, hs] at hk

theorem Rewritten.iinc_inv (h : Rewritten maxLocals swizzle curr insn st insn')
    (hk : insn.kind = .iinc) :
    ∃ (j : ℕ) (delta : ℤ) (before after : TosKind), swizzle[insn.index]? = some j ∧
      insn' = { insn with index := j, delta := delta, tosBefore := before, tosAfter := after } := by
  cases h with
  | access hk' _ => simp [hk, loadKind, storeKind] at hk'
  | iinc _ hj => exact ⟨_, _, _, _, hj, rfl⟩
  | shuffle hsh _ => simp [hk, InsnKind.isShuffle] at hsh
  | other _ _ hi _ _ => exact absurd hk hi

theorem Rewritten.shuffle_inv (h : Rewritten maxLocals swizzle curr insn st insn')
    (hk : insn.kind.isShuffle) (hst : shuffleKinds insn.kind st = some st') :
    ∃ (kind : InsnKind) (delta : ℤ) (before after : TosKind), ShuffleForm insn.kind kind st st' ∧
      insn' = { insn with kind := kind, delta := delta, tosBefore := before, tosAfter := after } := by
  obtain ⟨hl, hs, hi, -⟩ := loadKind_of_isShuffle hk
  cases h with
  | access hk' _ => simp [hl, hs] at hk'
  | iinc hi' _ => exact absurd hi' hi
  | shuffle _ hana => exact ⟨_, _, _, _, (analyzeShuffle_form hana hst).2, rfl⟩
  | other _ _ _ hk' _ => simp [hk] at hk'

theorem Rewritten.other_inv (h : Rewritten maxLocals swizzle curr insn st insn')
    (hl : loadKind insn.kind = none) (hs : storeKind insn.kind = none) (hi : insn.kind ≠ .iinc)
    (hk : insn.kind.isShuffle = false) :
    ∃ (delta : ℤ) (before after : TosKind),
      insn' = { insn with delta := delta, tosBefore := before, tosAfter := after } := by
  cases h with
  | access hk' _ => simp [hl, hs] at hk'
  | iinc hi' _ => exact absurd hi' hi
  | shuffle hk' _ => simp [hk] at hk'
  | other _ _ _ _ _ => exact ⟨_, _, _, rfl⟩

theorem localCell_rewritten {maxLocals j : ℕ} {insn : Instruction} {s : ℕ}
    (hz : Swizzles maxLocals swizzle) (hj : swizzle[s]? = some j)
    (hd : insn.delta = (maxLocals : ℤ) - j) : insn.localCell maxLocals = j := by
  have := (hz.get_lt hj).2
  simp only [Instruction.localCell, hd]
  omega

/-- What the instruction `insn`, rewritten to `insn'`, can do in a frame that the type checker admits
it in. -/
inductive Executed (maxLocals : ℕ) (swizzle : List ℕ) (insn insn' : Instruction) (f : KindFrame)
    (operands : List Value) (v : Value) (stack locals : List Value) :
    KindFrame → List Value → List Value → Prop where
  | load {k : TypeKind} {j : ℕ} {x : Value} (hk : loadKind insn.kind = some k)
      (hfit : localFits maxLocals insn.index k) (hlocal : f.locals insn.index = k)
      (hj : swizzle[insn.index]? = some j) (hx : locals[j]? = some x) (ho : operands = [x]) :
      Executed maxLocals swizzle insn insn' f operands v stack locals ⟨k :: f.stack, f.locals⟩
        (x :: stack) locals
  | store {k : TypeKind} {j : ℕ} {x : Value} {st : List TypeKind} {stack' : List Value}
      (hl : loadKind insn.kind = none) (hk : storeKind insn.kind = some k)
      (hfit : localFits maxLocals insn.index k) (hst : f.stack = k :: st)
      (hj : swizzle[insn.index]? = some j) (hx : stack = x :: stack') (ho : operands = [x])
      (hlt : j < locals.length) :
      Executed maxLocals swizzle insn insn' f operands v stack locals
        ⟨st, storeLocal insn.index k f.locals⟩ stack' (locals.set j x)
  | iinc {j : ℕ} {x : Value} (hk : insn.kind = .iinc) (hlt : insn.index < maxLocals)
      (hlocal : f.locals insn.index = .int) (hj : swizzle[insn.index]? = some j)
      (hx : locals[j]? = some x) (ho : operands = [x]) (hv : v.kind = .int) :
      Executed maxLocals swizzle insn insn' f operands v stack locals f stack (locals.set j v)
  | shuffle {st : List TypeKind} {stack' : List Value} (hk : insn.kind.isShuffle)
      (hform : ShuffleForm insn.kind insn'.kind f.stack st) (ho : operands = [])
      (hslots : shuffleSlots insn'.kind stack = some stack') :
      Executed maxLocals swizzle insn insn' f operands v stack locals ⟨st, f.locals⟩ stack' locals
  | other {pops st : List TypeKind} {push : TypeKind} (hl : loadKind insn.kind = none)
      (hs : storeKind insn.kind = none) (hi : insn.kind ≠ .iinc) (hk : insn.kind.isShuffle = false)
      (heff : jvmsEffect insn = some (pops, push))
      (hhandler : handlerEffect insn = some (pops.length, push)) (hst : f.stack = pops ++ st)
      (hvoid : .void ∉ pops) (hlen : operands.length = pops.length) (ho : operands <+: stack)
      (hv : push = .void ∨ v.kind = push) :
      Executed maxLocals swizzle insn insn' f operands v stack locals ⟨pushKind push st, f.locals⟩
        (pushValue push v (stack.drop pops.length)) locals

variable {operands stack locals stack' locals' : List Value}

theorem Rewritten.executed {maxLocals curr : ℕ} {v : Value}
    (hz : Swizzles maxLocals swizzle) (h : Rewritten maxLocals swizzle curr insn f.stack insn')
    (ht : Typed maxLocals insn f g)
    (he : execInsn maxLocals insn' operands v stack locals = some (stack', locals')) :
    Executed maxLocals swizzle insn insn' f operands v stack locals g stack' locals' := by
  cases ht with
  | load hl hfit hlocal =>
    obtain ⟨j, before, after, hj, rfl⟩ := h.access_inv (.inl (by simp [hl]))
    simp only [execInsn, hl] at he
    obtain ⟨x, hx, he⟩ := bind_eq_some_iff.mp he
    rw [localCell_rewritten hz hj rfl] at hx
    split at he
    · rename_i ho
      cases he
      exact .load hl hfit hlocal hj hx ho
    · cases he
  | store hl hs hfit hst =>
    obtain ⟨j, before, after, hj, rfl⟩ := h.access_inv (.inr (by simp [hs]))
    simp only [execInsn, hl, hs] at he
    split at he
    · rename_i x st
      rw [localCell_rewritten hz hj rfl] at he
      split at he
      · rename_i ho
        cases he
        exact .store hl hs hfit hst hj rfl ho.1 ho.2
      · cases he
    · cases he
  | iinc hk hlt hlocal =>
    obtain ⟨j, delta, before, after, hj, rfl⟩ := h.iinc_inv hk
    simp only [execInsn, hk, loadKind, storeKind, if_true] at he
    obtain ⟨x, hx, he⟩ := bind_eq_some_iff.mp he
    split at he
    · rename_i ho
      cases he
      exact .iinc hk hlt hlocal hj hx ho.1 ho.2
    · cases he
  | shuffle hk hkinds =>
    obtain ⟨kind, delta, before, after, hform, rfl⟩ := h.shuffle_inv hk hkinds
    have hsh := isShuffle_of_shuffleSlots hform.slots_eq
    obtain ⟨hl, hs, hi, -⟩ := loadKind_of_isShuffle hsh
    simp only [execInsn, hl, hs, hi, hsh, if_true, if_false] at he
    split at he
    · rename_i ho
      obtain ⟨st, hst', heq⟩ := map_eq_some_iff.mp he
      cases heq
      exact .shuffle hk hform ho hst'
    · cases he
  | other hl hs hi hk _ heff hhandler hst hv =>
    obtain ⟨delta, before, after, rfl⟩ := h.other_inv hl hs hi hk
    simp only [execInsn, hl, hs, hi, hk, if_false, Bool.false_eq_true] at he
    obtain ⟨e, hee, he⟩ := bind_eq_some_iff.mp he
    cases hhandler.symm.trans hee
    split at he
    · rename_i ho
      cases he
      exact .other hl hs hi hk heff hhandler hst hv ho.1 ho.2.1 ho.2.2
    · cases he

theorem Executed.execInsn_eq {maxLocals curr : ℕ} {v : Value}
    (hz : Swizzles maxLocals swizzle) (h : Rewritten maxLocals swizzle curr insn f.stack insn')
    (he : Executed maxLocals swizzle insn insn' f operands v stack locals g stack' locals') :
    execInsn maxLocals insn' operands v stack locals = some (stack', locals') := by
  cases he with
  | load hl _ _ hj' hx ho =>
    obtain ⟨j, before, after, hj, rfl⟩ := h.access_inv (.inl (by simp [hl]))
    cases hj.symm.trans hj'
    simp only [execInsn, hl]
    rw [localCell_rewritten hz hj rfl, hx, bind_some, if_pos ho]
  | store hl hs _ _ hj' hx ho hlt =>
    obtain ⟨j, before, after, hj, rfl⟩ := h.access_inv (.inr (by simp [hs]))
    cases hj.symm.trans hj'
    subst hx
    simp only [execInsn, hl, hs]
    rw [localCell_rewritten hz hj rfl, if_pos ⟨ho, hlt⟩]
  | iinc hk _ _ hj' hx ho hv =>
    obtain ⟨j, delta, before, after, hj, rfl⟩ := h.iinc_inv hk
    cases hj.symm.trans hj'
    simp only [execInsn, hk, loadKind, storeKind, if_true]
    rw [hx, bind_some, if_pos ⟨ho, hv⟩]
  | shuffle _ hform ho hslots =>
    have hsh := isShuffle_of_shuffleSlots hform.slots_eq
    obtain ⟨hl, hs, hi, -⟩ := loadKind_of_isShuffle hsh
    simp only [execInsn, hl, hs, hi, hsh, if_true, if_false]
    rw [if_pos ho, hslots]
    rfl
  | @other pops st push hl hs hi hk heff hhandler hst hvoid hlen ho hv =>
    obtain ⟨delta, before, after, rfl⟩ := h.other_inv hl hs hi hk
    have hsame : ∀ delta before after, handlerEffect
        { insn with delta := delta, tosBefore := before, tosAfter := after } =
        some (pops.length, push) := fun _ _ _ => hhandler
    simp only [execInsn, hl, hs, hi, hk, if_false, Bool.false_eq_true]
    rw [hsame, bind_some, if_pos ⟨hlen, ho, hv⟩]

theorem Executed.locals_length {v : Value}
    (h : Executed maxLocals swizzle insn insn' f operands v stack locals g stack' locals') :
    locals'.length = locals.length := by
  cases h <;> simp

theorem HoldsFrame.pushValue {fl : ℕ → TypeKind} {st : List TypeKind}
    {k : TypeKind} {v : Value} {stack locals : List Value}
    (h : HoldsFrame swizzle ⟨st, fl⟩ stack locals) (hv : k = .void ∨ v.kind = k) :
    HoldsFrame swizzle ⟨pushKind k st, fl⟩ (pushValue k v stack) locals := by
  unfold pushKind TraceJvm.pushValue
  split
  · exact h
  · exact ⟨.cons hv h.stack, h.locals⟩

/-- The other locals of the frame keep their values when one cell is written. -/
theorem HoldsFrame.set_local {maxLocals n j : ℕ} {f : KindFrame} {k : TypeKind}
    {stack locals : List Value} {x : Value} (hz : Swizzles maxLocals swizzle)
    (h : HoldsFrame swizzle f stack locals) (hj : swizzle[n]? = some j) (hlt : j < locals.length)
    (hx : x.kind = k) :
    HoldsFrame swizzle ⟨f.stack, storeLocal n k f.locals⟩ stack (locals.set j x) := by
  refine ⟨h.stack, fun s i hs hv => ?_⟩
  dsimp only at hv ⊢
  unfold storeLocal at hv ⊢
  by_cases hsn : s = n
  · subst hsn
    obtain rfl : j = i := some.inj (hj.symm.trans hs)
    exact ⟨x, by simp [hlt], by simpa using hx⟩
  · have hne : j ≠ i := by
      rintro rfl
      exact hsn (hz.get_inj hs hj)
    rw [List.getElem?_set_ne hne]
    simp only [hsn, if_false] at hv ⊢
    split at hv
    · exact absurd rfl hv
    split at hv
    · exact absurd rfl hv
    rename_i h1 h2
    rw [if_neg h1, if_neg h2]
    exact h.locals s i hs hv

/-- A rewritten instruction leaves values of the kinds that the type checker computes. -/
theorem Executed.holds {v : Value} (hz : Swizzles maxLocals swizzle)
    (h : Executed maxLocals swizzle insn insn' f operands v stack locals g stack' locals')
    (hf : HoldsFrame swizzle f stack locals) : HoldsFrame swizzle g stack' locals' := by
  cases h with
  | load hk hfit hlocal hj hx ho =>
    have hne : f.locals insn.index ≠ .void := by
      rw [hlocal]
      exact loadKind_ne_void hk
    obtain ⟨x', hx', hkind⟩ := hf.locals _ _ hj hne
    cases hx.symm.trans hx'
    exact ⟨.cons (.inr (hkind.trans hlocal)) hf.stack, hf.locals⟩
  | store hl hk hfit hst hj hx ho hlt =>
    have hs := hf.stack
    rw [hst, hx] at hs
    cases hs with
    | cons hx' hs =>
      have hkind := hx'.resolve_left (storeKind_ne_void hk)
      have hrest : HoldsFrame swizzle ⟨_, f.locals⟩ _ locals := ⟨hs, hf.locals⟩
      exact hrest.set_local hz hj hlt hkind
  | iinc hk hlt hlocal hj hx ho hv =>
    refine ⟨hf.stack, fun s i hs hne => ?_⟩
    rcases eq_or_ne s insn.index with rfl | hsn
    · cases hj.symm.trans hs
      have := (List.getElem?_eq_some_iff.mp hx).1
      exact ⟨v, by simp [this], hv.trans hlocal.symm⟩
    · rw [List.getElem?_set_ne]
      · exact hf.locals s i hs hne
      · rintro rfl
        exact hsn (hz.get_inj hs hj)
  | shuffle hk hform ho hslots =>
    obtain ⟨m, hm, hall⟩ := shuffleSlots_forall₂ hf.stack hform.slots_eq
    cases hslots.symm.trans hm
    exact ⟨hall, hf.locals⟩
  | @other pops st push hl hs hi hk heff he hst hvoid hlen ho hv =>
    have hdrop := List.forall₂_drop pops.length hf.stack
    rw [hst, List.drop_left] at hdrop
    have hrest : HoldsFrame swizzle ⟨st, f.locals⟩ (stack.drop pops.length) locals :=
      ⟨hdrop, hf.locals⟩
    exact hrest.pushValue hv

end TraceJvm
