import TraceJvm.TosDispatch

/-! The frame at the moments when a handler lets other code run. The collector reads the operand
stack from the cells of the frame, at the positions that the stack map of the current instruction
marks. -/
namespace TraceJvm

open Transition List

/-- A place in a handler, or around it, where an object can be allocated, an exception be raised or
other code be run. `callFailed` is a call whose frame cannot be pushed, `unwound` the search for an
exception handler after the callee has thrown; `callee` is what the callee left in its locals, which
share the cells of the arguments. `waiting` is any moment of a suspension. -/
inductive SafePoint where
  | nullCheck
  | rangeCheck
  | storeCheck
  | castCheck
  | zeroDivide
  | sizeCheck
  | ownerCheck
  | allocate
  | resolve
  | acquire
  | call
  | callFailed (handle : Value) (varHandle : Bool)
  | unwound (callee : ℕ → Value)
  | throws
  | leave
  | yield
  | pause
  | waiting

def pushesFrame : InsnKind → Bool
  | .invokestaticResolved | .hotAot | .invokespecialResolved | .invokevtableMonomorphic
  | .invokevtablePolymorphic | .invokeitableMonomorphic | .invokeitablePolymorphic
  | .invokesigpoly | .invokecallsite => true
  | _ => false

def isResolvedGetfield : InsnKind → Bool
  | .getfieldB | .getfieldC | .getfieldS | .getfieldI | .getfieldJ | .getfieldF | .getfieldD
  | .getfieldZ | .getfieldL => true
  | _ => false

def isPrimitivePutfield : InsnKind → Bool
  | .putfieldB | .putfieldC | .putfieldS | .putfieldI | .putfieldJ | .putfieldF | .putfieldD
  | .putfieldZ => true
  | _ => false

def isArrayLoad : InsnKind → Bool
  | .iaload | .laload | .faload | .daload | .aaload | .baload | .saload | .caload => true
  | _ => false

def isPrimitiveArrayStore : InsnKind → Bool
  | .iastore | .lastore | .fastore | .dastore | .bastore | .sastore | .castore => true
  | _ => false

/-- Whether the handler has the point, and whether it has stored the register by then: `SPILL(tos)`
or a forwarded handler against `SPILL_VOID` alone. -/
def spillsAt (k : InsnKind) : SafePoint → Option Bool
  | .nullCheck =>
    match k with
    | .getfield | .putfield | .invokevirtual | .invokespecial | .invokeinterface
    | .invokespecialResolved | .invokevtableMonomorphic | .invokevtablePolymorphic
    | .invokeitableMonomorphic | .invokeitablePolymorphic | .invokesigpoly | .athrow
    | .hotArraysSupportUnsignedHashCode | .hotStringLatin1Equals => some true
    | .arraylength | .monitorenter | .monitorexit | .aastore | .putfieldL => some false
    | k =>
      if isResolvedGetfield k || isPrimitivePutfield k || isArrayLoad k || isPrimitiveArrayStore k
      then some false else none
  | .rangeCheck =>
    match k with
    | .aastore | .hotArraysSupportUnsignedHashCode => some true
    | k => if isArrayLoad k || isPrimitiveArrayStore k then some false else none
  | .storeCheck => if k = .aastore then some true else none
  | .castCheck => if k = .checkcastResolved then some true else none
  | .zeroDivide => if k = .idiv ∨ k = .ldiv ∨ k = .irem ∨ k = .lrem then some true else none
  | .sizeCheck =>
    match k with
    | .newarray | .multianewarray => some true
    | .anewarrayResolved => some false
    | _ => none
  | .ownerCheck => if k = .monitorexit then some false else none
  | .allocate =>
    match k with
    | .newResolved | .newarray | .multianewarray | .ldc => some true
    | .anewarrayResolved => some false
    | _ => none
  | .resolve =>
    match k with
    | .getstatic | .putstatic | .getfield | .putfield | .new | .invokestatic | .invokevirtual
    | .invokespecial | .invokeinterface | .invokedynamic | .checkcast | .instanceof | .ldc
    | .multianewarray => some true
    | .anewarray => some false
    | _ => none
  | .acquire => if k = .monitorenter then some true else none
  | .call | .callFailed _ _ | .unwound _ => if pushesFrame k then some true else none
  | .throws => if k = .athrow then some true else none
  | .leave =>
    match k with
    | .returnVoid | .areturn | .ireturn | .lreturn | .freturn | .dreturn => some true
    | _ => none
  | .yield => if checksFuel k then some true else none
  | .pause => some false
  | .waiting => none

/-- The operands that a null check of the handler looks at, counted from the top of the stack. -/
def nullOperands (insn : Instruction) : List ℕ :=
  match insn.kind with
  | .putfield | .putfieldL => [1]
  | .aastore => [2]
  | .hotArraysSupportUnsignedHashCode => [2]
  | .hotStringLatin1Equals => [0, 1]
  | .invokevirtual | .invokespecial | .invokeinterface | .invokespecialResolved
  | .invokevtableMonomorphic | .invokevtablePolymorphic | .invokeitableMonomorphic
  | .invokeitablePolymorphic | .invokesigpoly => [insn.method.args.length]
  | k =>
    if isPrimitivePutfield k || isArrayLoad k then [1]
    else if isPrimitiveArrayStore k then [2] else [0]

def argumentCells (insn : Instruction) : ℕ :=
  match insn.kind with
  | .invokestaticResolved | .hotAot | .invokecallsite => insn.method.args.length
  | _ => insn.method.args.length + 1

/-- Cells from `base` on, moved up by one to make room for a method handle. -/
def prependCell (base n : ℕ) (x : Value) (memory : ℕ → Value) (i : ℕ) : Value :=
  if i = base then x
  else if base < i ∧ i ≤ base + n then memory (i - 1)
  else memory i

/-- The cells of the operand stack at a point of the handler that has control. A call site and a
signature polymorphic call put a method handle in front of or in place of their first argument
before they push the frame. -/
def TosFrame.memoryAt (s : TosFrame) (insn : Instruction) : SafePoint → ℕ → Value
  | .callFailed x varHandle =>
    if insn.kind = .invokecallsite then
      prependCell (s.sp - argumentCells insn) (argumentCells insn) x s.spilled
    else if insn.kind = .invokesigpoly then
      if varHandle then prependCell (s.sp - argumentCells insn) (argumentCells insn) x s.spilled
      else Function.update s.spilled (s.sp - argumentCells insn) x
    else s.spilled
  | .unwound callee => fun i => if i < s.sp - argumentCells insn then s.spilled i else callee i
  | p => if spillsAt insn.kind p = some true then s.spilled else s.memory

/-- The activation can reach the point: its handler has it, and a null check finds a null. -/
def TosFrame.reaches (s : TosFrame) (insn : Instruction) : SafePoint → Prop
  | .waiting => s.pending ≠ none
  | .pause => s.pending = none
  | p => s.pending = none ∧ hasHandler s.tos insn.kind ∧ (spillsAt insn.kind p).isSome ∧
      (p matches .nullCheck → ∃ n ∈ nullOperands insn, s.stack[n]? = some (.reference none))

inductive FrameRoot where
  | stack (i : ℕ)
  | local (j : ℕ)

/-- The scan of an interpreter frame in `push_thread_roots`, with the contents of the slots: first
the marked cells of the operand stack, then the marked locals. -/
def frameRoots (r : StackSummary) (memory : ℕ → Value) (locals : List Value) :
    List (FrameRoot × Value) :=
  ((List.range r.stack.length).filter fun i => r.stack.reverse[i]? = some .reference).map
    (fun i => (.stack i, memory i)) ++
  ((List.range r.locals.length).filter fun j => r.locals[j]? = some .reference).filterMap
    fun j => (locals[j]?).map fun v => (.local j, v)

def passesReference (insn : Instruction) : Bool :=
  match insn.kind with
  | .invokestaticResolved | .hotAot | .invokecallsite =>
      insn.method.args.any fun a => a.reprKind = .reference
  | _ => true

/-- The points at which a marked cell is not written: the null checks of `getfield`, `arraylength`,
`monitorenter`, `monitorexit`, of `putfield` and `aastore` of a reference; `monitorexit` by a thread
that is not the owner; a call site or a signature polymorphic call whose frame cannot be pushed, and
the search for a handler after a callee has thrown, when a reference was passed; a pause of the
debugger with a reference in the register. -/
def TosFrame.unspilled (s : TosFrame) (r : StackSummary) (insn : Instruction) : SafePoint → Bool
  | .nullCheck =>
    match insn.kind with
    | .arraylength | .monitorenter | .monitorexit | .putfieldL | .aastore => true
    | k => isResolvedGetfield k
  | .ownerCheck => true
  | .callFailed _ _ =>
      (insn.kind = .invokecallsite || insn.kind = .invokesigpoly) && passesReference insn
  | .unwound _ => passesReference insn
  | .pause => s.tos ≠ .void && r.stack.head? = some .reference
  | _ => false

theorem TosFrame.spilled_eq_value {s : TosFrame} (hpos : s.tos ≠ .void → 0 < s.sp) {i : ℕ} :
    s.spilled i = s.value i := by
  unfold TosFrame.spilled TosFrame.value
  split
  · rename_i htos
    simp [htos]
  · rename_i htos
    have := hpos htos
    by_cases hi : i + 1 = s.sp
    · have heq : i = s.sp - 1 := by omega
      simp [htos, hi, ← heq]
    · have hne : i ≠ s.sp - 1 := by omega
      simp [hi, hne]

theorem TosFrame.memory_eq_value {s : TosFrame} {i : ℕ} (h : s.tos ≠ .void → i + 1 ≠ s.sp) :
    s.memory i = s.value i := by
  unfold TosFrame.value
  rw [if_neg]
  rintro ⟨hne, heq⟩
  exact h hne heq

theorem frameRoots_congr {r : StackSummary} {memory memory' : ℕ → Value} {locals : List Value}
    (h : ∀ i, r.stack.reverse[i]? = some .reference → memory i = memory' i) :
    frameRoots r memory locals = frameRoots r memory' locals := by
  unfold frameRoots
  congr 1
  apply map_congr_left
  intro i hi
  rw [h i (by simpa using (mem_filter.mp hi).2)]

def primitiveTop (k : InsnKind) : Bool :=
  isPrimitivePutfield k || isArrayLoad k || isPrimitiveArrayStore k || k = .anewarray ||
    k = .anewarrayResolved

def receivesNothing (k : InsnKind) : Bool :=
  k = .invokestaticResolved || k = .hotAot || k = .invokecallsite

variable {k : InsnKind}

theorem fieldKind_top {b : Bool} {c : TypeKind}
    (h : getfieldPutfieldResolvedKind b c = some k) :
    receivesNothing k = false ∧ (primitiveTop k → b = true ∧ c ≠ .reference) := by
  cases c <;> cases b <;> cases h <;> decide

theorem staticKind_top {b : Bool} {c : TypeKind}
    (h : getstaticPutstaticResolvedKind b c = some k) :
    receivesNothing k = false ∧ primitiveTop k = false := by
  cases c <;> cases b <;> cases h <;> decide

theorem intrinsic_top (h : isIntrinsic k) : primitiveTop k = false := by
  cases k <;> first | rfl | cases h

variable {pops : List TypeKind} {o : Instruction} {push : TypeKind}

theorem pops_of_kind
    (heff : jvmsEffect o = some (pops, push)) (htop : primitiveTop o.kind) :
    ∃ c rest, pops = c :: rest ∧ c ≠ .reference := by
  obtain ⟨kind⟩ := o
  cases kind <;> first
    | (cases htop; done)
    | (cases heff; done)
    | (cases heff; exact ⟨_, _, rfl, nofun⟩)

theorem receives_of_kind
    (heff : jvmsEffect o = some (pops, push)) : receivesNothing o.kind = false := by
  obtain ⟨kind⟩ := o
  cases kind <;> first
    | rfl
    | cases heff

theorem pops_of_neither (h : receivesNothing k = false ∧ primitiveTop k = false) :
    (primitiveTop k → ∃ c rest, pops = c :: rest ∧ c ≠ .reference) ∧
      (receivesNothing k → pops = (o.method.args.map FieldDescriptor.reprKind).reverse) :=
  ⟨fun htop => by simp [h.2] at htop, fun hrec => by simp [h.1] at hrec⟩

theorem pops_of_rewrites (hk : k ∈ rewrites o) (heff : jvmsEffect o = some (pops, push)) :
    (primitiveTop k → ∃ c rest, pops = c :: rest ∧ c ≠ .reference) ∧
      (receivesNothing k → pops = (o.method.args.map FieldDescriptor.reprKind).reverse) := by
  have hlist : ∀ ks : List InsnKind, k ∈ ks →
      (∀ k ∈ ks, receivesNothing k = false ∧ primitiveTop k = false) →
      (primitiveTop k → ∃ c rest, pops = c :: rest ∧ c ≠ .reference) ∧
        (receivesNothing k → pops = (o.method.args.map FieldDescriptor.reprKind).reverse) :=
    fun ks hmem hall => pops_of_neither (hall k hmem)
  unfold rewrites at hk
  split at hk
  case h_1 | h_2 => exact pops_of_neither (staticKind_top (Option.mem_toList.mp hk))
  case h_3 hkind =>
    rcases mem_cons.mp hk with rfl | hk
    · exact pops_of_neither (by decide)
    · obtain ⟨hrec, htop⟩ := fieldKind_top (Option.mem_toList.mp hk)
      exact ⟨fun h => by simpa using (htop h).1, fun h => by simp [hrec] at h⟩
  case h_4 hkind =>
    rcases mem_cons.mp hk with rfl | hk
    · exact pops_of_neither (by decide)
    · obtain ⟨hrec, htop⟩ := fieldKind_top (Option.mem_toList.mp hk)
      simp only [jvmsEffect, hkind] at heff
      cases heff
      exact ⟨fun h => ⟨_, _, rfl, (htop h).2⟩, fun h => by simp [hrec] at h⟩
  case h_6 hkind =>
    obtain rfl := mem_singleton.mp hk
    simp only [jvmsEffect, stackEffect, hkind] at heff
    cases heff
    exact ⟨fun _ => ⟨_, _, rfl, fun h => by cases h⟩, fun h => by cases h⟩
  case h_9 hkind =>
    simp only [jvmsEffect, stackEffect, hkind] at heff
    cases heff
    refine ⟨fun h => ?_, fun _ => rfl⟩
    rcases mem_cons.mp hk with rfl | hk
    · cases h
    · simp [intrinsic_top (isIntrinsic_of_mem hk)] at h
  case h_12 hkind =>
    rcases mem_cons.mp hk with rfl | hk
    · exact pops_of_neither (by decide)
    · split at hk
      · exact hlist _ hk (by decide)
      · cases hk
  case h_13 hkind =>
    obtain rfl := mem_singleton.mp hk
    simp only [jvmsEffect, stackEffect, hkind] at heff
    cases heff
    exact ⟨fun h => (by cases h), fun _ => rfl⟩
  case h_16 => cases hk
  all_goals exact hlist _ hk (by decide)

/-- What the verifier has found on top of the stack of an instruction that has been rewritten. -/
theorem pops_of_form (hk : k ∈ forms o) (heff : jvmsEffect o = some (pops, push)) :
    (primitiveTop k → ∃ c rest, pops = c :: rest ∧ c ≠ .reference) ∧
      (receivesNothing k → pops = (o.method.args.map FieldDescriptor.reprKind).reverse) := by
  unfold forms at hk
  split at hk
  · have hnone : ∀ k ∈ [InsnKind.invokevirtual, .invokeinterface, .invokesigpoly,
        .invokespecialResolved, .invokevtableMonomorphic, .invokevtablePolymorphic,
        .invokeitableMonomorphic, .invokeitablePolymorphic],
        primitiveTop k = false ∧ receivesNothing k = false := by decide
    obtain ⟨htop, hrec⟩ := hnone k hk
    exact ⟨fun h => by simp [htop] at h, fun h => by simp [hrec] at h⟩
  · rcases mem_cons.mp hk with rfl | hk
    · exact ⟨pops_of_kind heff, fun h => by simp [receives_of_kind heff] at h⟩
    · exact pops_of_rewrites hk heff

/-! ### Marked cells -/

section Marked

variable {m : CodeMethod} {T : ℕ → Option KindFrame} {A : CodeAnalysis} {swizzle : List ℕ}
  {s : TosFrame} {f : KindFrame} {insn o : Instruction} {k : InsnKind} {r : StackSummary}
  {p : SafePoint}

theorem unmarked_of_top {st : List TypeKind} {n i : ℕ} (h : ∀ j < n, st[j]? ≠ some .reference)
    (hi : st.length ≤ i + n) : st.reverse[i]? ≠ some .reference := by
  intro hmark
  have hlt : i < st.length := by
    rw [← length_reverse]
    exact (List.getElem?_eq_some_iff.mp hmark).1
  rw [getElem?_reverse hlt] at hmark
  exact h _ (by omega) hmark

theorem top_of_access
    (h : (loadKind insn.kind).isSome ∨ (storeKind insn.kind).isSome ∨ insn.kind = .iinc ∨
      insn.kind.isShuffle) :
    primitiveTop insn.kind = false ∧ receivesNothing insn.kind = false := by
  obtain ⟨kind⟩ := insn
  dsimp only at h ⊢
  rcases h with h | h | h | h
  · cases kind <;> first | (cases h; done) | exact ⟨rfl, rfl⟩
  · cases kind <;> first | (cases h; done) | exact ⟨rfl, rfl⟩
  · subst h
    exact ⟨rfl, rfl⟩
  · cases kind <;> first | (cases h; done) | exact ⟨rfl, rfl⟩

/-- The operands of the instruction are on top of the stack. -/
theorem Standing.operands (ht : Typing m T) (hst : Standing m T A swizzle s f insn o k)
    (h : primitiveTop k ∨ receivesNothing k) :
    ∃ pops push st, jvmsEffect o = some (pops, push) ∧ f.stack = pops ++ st := by
  have haccess (hk : (loadKind o.kind).isSome ∨ (storeKind o.kind).isSome ∨ o.kind = .iinc ∨
      o.kind.isShuffle) : False := by
    have hform := hst.form
    rw [forms_eq_singleton hk] at hform
    obtain rfl := mem_singleton.mp hform
    obtain ⟨htop, hrec⟩ := top_of_access hk
    rw [htop, hrec] at h
    rcases h with h | h
    · cases h
    · cases h
  obtain ⟨g, hty, -⟩ := hst.typed ht
  generalize f.stack = st at hty ⊢
  generalize g.stack = st' at hty
  cases hty with
  | load hl => exact (haccess (.inl (by rw [hl]; rfl))).elim
  | store hl => exact (haccess (.inr (.inl (by rw [hl]; rfl)))).elim
  | iinc hi => exact (haccess (.inr (.inr (.inl hi)))).elim
  | shuffle hform => exact (haccess (.inr (.inr (.inr hform.isShuffle)))).elim
  | other heff _ => exact ⟨_, _, _, heff, rfl⟩

theorem Standing.top_unmarked (ht : Typing m T) (hst : Standing m T A swizzle s f insn o k)
    (h : primitiveTop k) : ∀ j < 1, f.stack[j]? ≠ some .reference := by
  obtain ⟨pops, push, st, heff, hstack⟩ := hst.operands ht (.inl h)
  obtain ⟨c, rest, hpops, hc⟩ := (pops_of_form hst.form heff).1 h
  intro j hj hmark
  obtain rfl : j = 0 := Nat.lt_one_iff.mp hj
  rw [hstack, hpops] at hmark
  exact hc (Option.some.inj hmark)

theorem Standing.arguments_unmarked (ht : Typing m T) (hst : Standing m T A swizzle s f insn o k)
    (h : passesReference { o with kind := k } = false) :
    ∀ j < argumentCells { o with kind := k }, f.stack[j]? ≠ some .reference := by
  have hrec : receivesNothing k ∧ argumentCells { o with kind := k } = o.method.args.length ∧
      ∀ a ∈ o.method.args, a.reprKind ≠ .reference := by
    unfold passesReference at h
    dsimp only at h
    split at h
    iterate 3 exact ⟨rfl, rfl, by simpa using h⟩
    · cases h
  obtain ⟨hrec, hcells, hargs⟩ := hrec
  obtain ⟨pops, push, st, heff, hstack⟩ := hst.operands ht (.inr hrec)
  have hpops := (pops_of_form hst.form heff).2 hrec
  intro j hj hmark
  rw [hcells] at hj
  have hlength : pops.length = o.method.args.length := by
    rw [hpops, length_reverse, length_map]
  rw [hstack, getElem?_append_left (by omega)] at hmark
  have hmem := mem_of_getElem? hmark
  rw [hpops, mem_reverse] at hmem
  obtain ⟨a, ha, hkind⟩ := mem_map.mp hmem
  exact hargs a ha hkind

def insideHandler : SafePoint → Bool
  | .callFailed _ _ | .unwound _ | .pause | .waiting => false
  | _ => true

theorem unspilled_getfield (h : isResolvedGetfield insn.kind) :
    s.unspilled r insn .nullCheck = true := by
  obtain ⟨kind⟩ := insn
  cases kind <;> first
    | rfl
    | cases h

/-- Where the handler has not stored the register, it holds no reference, with some exceptions. -/
theorem primitiveTop_of_unstored (hinside : insideHandler p)
    (hpoint : spillsAt insn.kind p = some false) (hok : s.unspilled r insn p = false) :
    primitiveTop insn.kind := by
  have harray : isArrayLoad insn.kind || isPrimitiveArrayStore insn.kind →
      primitiveTop insn.kind := by
    intro h
    unfold primitiveTop
    rcases Bool.or_eq_true_iff.mp h with h | h
    · rw [h, Bool.or_true, Bool.true_or, Bool.true_or, Bool.true_or]
    · rw [h, Bool.or_true, Bool.true_or, Bool.true_or]
  cases p with
  | callFailed _ _ | unwound _ | pause | waiting => cases hinside
  | ownerCheck => cases hok
  | nullCheck =>
    by_cases hget : isResolvedGetfield insn.kind
    · rw [unspilled_getfield hget] at hok
      cases hok
    unfold spillsAt at hpoint
    dsimp only at hpoint
    split at hpoint
    case h_20 =>
      split at hpoint
      · rename_i h
        rw [Bool.not_eq_true] at hget
        rw [hget, Bool.false_or, Bool.or_assoc] at h
        rcases Bool.or_eq_true_iff.mp h with h | h
        · unfold primitiveTop
          rw [h]
          rfl
        · exact harray h
      · cases hpoint
    all_goals first
      | (cases hpoint; done)
      | (rename_i hkind; unfold TosFrame.unspilled at hok; rw [hkind] at hok; cases hok)
  | rangeCheck =>
    unfold spillsAt at hpoint
    dsimp only at hpoint
    split at hpoint
    · cases hpoint
    · cases hpoint
    · split at hpoint
      · rename_i h
        exact harray h
      · cases hpoint
  | sizeCheck | allocate | resolve =>
    unfold spillsAt at hpoint
    dsimp only at hpoint
    split at hpoint <;> first
      | (rename_i hkind; rw [hkind]; rfl)
      | cases hpoint
  | storeCheck | castCheck | zeroDivide | acquire | call | throws | leave | yield =>
    unfold spillsAt at hpoint
    dsimp only at hpoint
    split at hpoint <;> cases hpoint

theorem memoryAt_inside (hinside : insideHandler p) :
    s.memoryAt insn p = if spillsAt insn.kind p = some true then s.spilled else s.memory := by
  cases p <;> first
    | rfl
    | cases hinside

/-- The marked cells hold the operand stack unless the point is one of the exceptions. -/
theorem Standing.memoryAt_eq_value (ht : Typing m T) (hst : Standing m T A swizzle s f insn o k)
    (h : Settled T A s) (hstack : r.stack = f.stack) (hreach : s.reaches { o with kind := k } p)
    (hok : s.unspilled r { o with kind := k } p = false) {i : ℕ}
    (hmark : r.stack.reverse[i]? = some .reference) :
    s.memoryAt { o with kind := k } p i = s.value i := by
  have hlength := hst.depth
  have hspilled : s.spilled i = s.value i := TosFrame.spilled_eq_value h.positive
  have hfree (n : ℕ) (hn : ∀ j < n, f.stack[j]? ≠ some .reference) : i < s.sp - n := by
    rw [hstack] at hmark
    by_contra hi
    exact unmarked_of_top hn (by omega) hmark
  by_cases hinside : insideHandler p
  · rw [memoryAt_inside hinside]
    have hpoint : (spillsAt k p).isSome := by
      cases p with
      | callFailed _ _ | unwound _ | pause | waiting => cases hinside
      | _ => exact hreach.2.2.1
    cases hspill : spillsAt k p with
    | none =>
      rw [hspill] at hpoint
      cases hpoint
    | some stored =>
      cases stored with
      | true =>
        rw [if_pos rfl]
        exact hspilled
      | false =>
        rw [if_neg (by decide)]
        have htop := primitiveTop_of_unstored hinside hspill hok
        have hi := hfree 1 (hst.top_unmarked ht htop)
        exact TosFrame.memory_eq_value fun _ heq => by omega
  · cases p with
    | callFailed x varHandle =>
      unfold TosFrame.memoryAt
      dsimp only
      unfold TosFrame.unspilled at hok
      dsimp only at hok
      split
      · rename_i hk
        rw [decide_eq_true hk, Bool.true_or, Bool.true_and] at hok
        have hi := hfree _ (hst.arguments_unmarked ht hok)
        unfold prependCell
        rw [if_neg (by omega), if_neg (by omega), hspilled]
      split
      · rename_i hk
        subst hk
        cases hok
      · exact hspilled
    | unwound callee =>
      have hi := hfree _ (hst.arguments_unmarked ht hok)
      show (if i < s.sp - argumentCells { o with kind := k } then s.spilled i else callee i) = _
      rw [if_pos hi, hspilled]
    | pause =>
      apply TosFrame.memory_eq_value
      intro htos heq
      unfold TosFrame.unspilled at hok
      dsimp only at hok
      rw [decide_eq_true htos, Bool.true_and, decide_eq_false_iff_not, hstack] at hok
      have hi := hfree 1 (by
        intro j hj
        obtain rfl : j = 0 := Nat.lt_one_iff.mp hj
        rw [← head?_eq_getElem?]
        exact hok)
      omega
    | waiting =>
      apply TosFrame.memory_eq_value
      intro htos
      obtain ⟨kind, hkind⟩ := Option.ne_none_iff_exists'.mp hreach
      exact absurd (h.pending kind hkind).1 htos
    | _ => exact absurd rfl hinside

end Marked

/-- In every run of an accepted method that the verifier admits, and at every point where other code
can run, the collector finds in the frame what the operand stack and the locals hold. The run does
not finish a suspended `putstatic`, and the point is none of the exceptions. -/
theorem spill_discipline {fuel : ℕ} {m : CodeMethod} {T : ℕ → Option KindFrame} {A : CodeAnalysis}
    {s₀ s : TosFrame} (hv : Verified m T) (h : analyzeMethodCode fuel m = some (.ok A))
    (hentry : s₀.Entry (m.tosEnv A))
    (hrun : Runs (tosStep (m.tosEnv A)) (fun s a => ¬ resumesPutstatic (m.tosEnv A) s a) s₀ s)
    {insn : Instruction} {r : StackSummary} {p : SafePoint} (hinsn : s.code[s.pc]? = some insn)
    (hr : A.states[s.pc]? = some r) (hreach : s.reaches insn p)
    (hok : s.unspilled r insn p = false) :
    frameRoots r (s.memoryAt insn p) s.locals = frameRoots r s.value s.locals := by
  obtain ⟨swizzle, _, -, hA⟩ := hv.analysedAt h
  have ht := hv.typing
  have hsettled := hrun.invariant (Settled T A) (settled_entry ht hA hentry).1
    fun _ _ _ hi hok hstep => settled_step ht hA hi hok hstep
  obtain ⟨f, insn', o, k, hst⟩ := hsettled.standing ht hA
  cases hst.current.symm.trans hinsn
  obtain ⟨r', hana⟩ := hst.analysed
  cases hana.state.symm.trans hr
  apply frameRoots_congr
  intro i hmark
  exact hst.memoryAt_eq_value ht hsettled hana.stack hreach hok hmark

/-- `static int f(Object o)`, which returns the length of the array `(int[]) o`. -/
def castLength : CodeMethod where
  maxStack := 1
  maxLocals := 1
  code := [{ kind := .aload, originalPc := 0 }, { kind := .checkcast, originalPc := 1 },
    { kind := .arraylength, originalPc := 4 }, { kind := .ireturn, originalPc := 5 }]
  exceptionTable := []
  lvt := []
  stackMapTable := none
  pc_zero := by simp
  pc_lt := by decide
  isStatic := true
  isCtor := false
  descriptor := ⟨[.ofKind .reference], .ofKind .int, FieldDescriptor.reference_ne_void⟩
  missingSmt := false
  missing_eq := CodeMethod.noTable_eq

theorem castLength_consistent : KindConsistent castLength [castLength.entryFrame] where
  boundaries := by
    intro d hd
    obtain rfl := mem_singleton.mp hd
    exact ⟨{ kind := .aload, originalPc := 0 }, by decide, rfl⟩
  entry := by
    rintro f ⟨⟩
    exact ⟨.nil, fun s => .inr rfl⟩
  step := by
    intro i insn f hi hf
    match i with
    | 0 | 1 | 2 =>
      cases hi
      cases hf
      exact ⟨_, rfl, nofun, fun _ => ⟨by decide, nofun⟩⟩
    | 3 =>
      cases hi
      cases hf
      exact ⟨_, rfl, nofun, nofun⟩
    | i + 4 => simp [castLength] at hi
  handlers := fun _ _ _ _ he => by cases he

theorem castLength_verified :
    Verified castLength (kindsAt 1 castLength.code [castLength.entryFrame]) :=
  .table rfl (.inr ⟨rfl, rfl⟩) rfl castLength_consistent rfl

def castLengthAnalysis : CodeAnalysis :=
  match analyzeMethodCode 1 castLength with
  | some (.ok A) => A
  | _ => ⟨[], [], []⟩

theorem castLength_accepted : analyzeMethodCode 1 castLength = some (.ok castLengthAnalysis) := rfl

/-- A call of it. The cell of the operand stack still has an old reference. -/
def castLengthEntry (argument : Option ℕ) : TosFrame :=
  ⟨0, .void, .int 0, 0, fun _ => .reference (some 7), [.reference argument],
    castLengthAnalysis.code, none⟩

theorem castLengthEntry_entry (argument : Option ℕ) :
    (castLengthEntry argument).Entry (castLength.tosEnv castLengthAnalysis) where
  pc := rfl
  code := rfl
  pending := rfl
  depth := rfl
  tos insn hi := by
    cases hi
    rfl

theorem spill_discipline_castLength :
    ∃ s insn r, Runs (tosStep (castLength.tosEnv castLengthAnalysis))
        (fun s a => ¬ resumesPutstatic (castLength.tosEnv castLengthAnalysis) s a)
        (castLengthEntry (some 5)) s ∧
      insn.kind = .checkcast ∧ s.reaches insn .resolve ∧
      frameRoots r (s.memoryAt insn .resolve) s.locals =
        [(.stack 0, .reference (some 5)), (.local 0, .reference (some 5))] := by
  have hok : ¬ resumesPutstatic (castLength.tosEnv castLengthAnalysis) (castLengthEntry (some 5))
      (.step (.proceed [.reference (some 5)] (.int 0) 1)) := nofun
  have hstep : tosStep (castLength.tosEnv castLengthAnalysis) (castLengthEntry (some 5))
      (.step (.proceed [.reference (some 5)] (.int 0) 1)) =
        some ⟨1, .int, .reference (some 5), 1, fun _ => .reference (some 7),
          [.reference (some 5)], castLengthAnalysis.code, none⟩ := rfl
  have hrun : Runs (tosStep (castLength.tosEnv castLengthAnalysis))
      (fun s a => ¬ resumesPutstatic (castLength.tosEnv castLengthAnalysis) s a)
      (castLengthEntry (some 5)) _ := Runs.refl.tail hok hstep
  obtain ⟨insn, hinsn, hkind⟩ : ∃ insn, castLengthAnalysis.code[1]? = some insn ∧
      insn.kind = .checkcast := ⟨_, rfl, rfl⟩
  have hreach : TosFrame.reaches ⟨1, .int, .reference (some 5), 1, fun _ => .reference (some 7),
      [.reference (some 5)], castLengthAnalysis.code, none⟩ insn .resolve := by
    refine ⟨rfl, ?_, ?_, nofun⟩
    · rw [hkind]
      rfl
    · rw [hkind]
      rfl
  have hroots := spill_discipline castLength_verified castLength_accepted
    (castLengthEntry_entry (some 5)) hrun hinsn rfl hreach rfl
  exact ⟨_, _, _, hrun, hkind, hreach, hroots⟩

/-- Once another call has resolved the cast, the null check of `arraylength` makes its exception
with the old reference in the marked cell and null in the register. -/
theorem castLength_stale :
    Verified castLength (kindsAt 1 castLength.code [castLength.entryFrame]) ∧
    (castLengthEntry none).Entry (castLength.tosEnv castLengthAnalysis) ∧
    ∃ s insn r, analyzeMethodCode 1 castLength = some (.ok castLengthAnalysis) ∧
      Reachable (tosStep (castLength.tosEnv castLengthAnalysis)) (castLengthEntry none) s ∧
      s.code[s.pc]? = some insn ∧ castLengthAnalysis.states[s.pc]? = some r ∧
      s.reaches insn .nullCheck ∧
      frameRoots r (s.memoryAt insn .nullCheck) s.locals =
        [(.stack 0, .reference (some 7)), (.local 0, .reference none)] ∧
      frameRoots r s.value s.locals = [(.stack 0, .reference none), (.local 0, .reference none)] :=
  ⟨castLength_verified, castLengthEntry_entry none, _, _, _, rfl,
    reachable_of_run (w := [.rewrite 1 .checkcastResolved,
    .step (.proceed [.reference none] (.int 0) 1),
    .step (.proceed [.reference none] (.reference none) 2)]) rfl, rfl, rfl,
    ⟨rfl, rfl, rfl, fun _ => ⟨0, by decide, rfl⟩⟩, rfl, rfl⟩

end TraceJvm
