import TraceJvm.Resolution
import Mathlib.Data.List.Induction

/-! Several threads resolving one instruction, compared with one thread that executes it
repeatedly without ever being suspended. -/
namespace TraceJvm

open Transition

/-- What an instruction does, whatever form it has been rewritten to. A resolved instance call can
be an `invokespecial_resolved`, and `Object.<init>` is resolved to a `pop`. -/
inductive Operation where
  | getstatic | putstatic | getfield | putfield | new | checkcast | instanceof | anewarray
  | invokestatic | invokeinstance | invokedynamic | other
  deriving DecidableEq

def operation : InsnKind → Operation
  | .getstatic | .getstaticB | .getstaticC | .getstaticS | .getstaticI | .getstaticJ
  | .getstaticF | .getstaticD | .getstaticZ | .getstaticL => .getstatic
  | .putstatic | .putstaticB | .putstaticC | .putstaticS | .putstaticI | .putstaticJ
  | .putstaticF | .putstaticD | .putstaticZ | .putstaticL => .putstatic
  | .getfield | .getfieldB | .getfieldC | .getfieldS | .getfieldI | .getfieldJ
  | .getfieldF | .getfieldD | .getfieldZ | .getfieldL => .getfield
  | .putfield | .putfieldB | .putfieldC | .putfieldS | .putfieldI | .putfieldJ
  | .putfieldF | .putfieldD | .putfieldZ | .putfieldL => .putfield
  | .new | .newResolved => .new
  | .checkcast | .checkcastResolved => .checkcast
  | .instanceof | .instanceofResolved => .instanceof
  | .anewarray | .anewarrayResolved => .anewarray
  | .invokestatic | .invokestaticResolved | .pow | .sin | .cos | .tan | .sqrt | .hotAot
  | .hotArraysSupportUnsignedHashCode | .hotStringLatin1Equals => .invokestatic
  | .invokevirtual | .invokeinterface | .invokespecial | .invokespecialResolved | .pop
  | .invokevtableMonomorphic | .invokevtablePolymorphic | .invokeitableMonomorphic
  | .invokeitablePolymorphic | .invokesigpoly => .invokeinstance
  | .invokedynamic | .invokecallsite => .invokedynamic
  | _ => .other

/-- The kinds that `intrinsify` writes. -/
def isIntrinsic : InsnKind → Bool
  | .pow | .sin | .cos | .tan | .sqrt | .hotAot | .hotArraysSupportUnsignedHashCode
  | .hotStringLatin1Equals => true
  | _ => false

/-- What the handler of a kind expects to find in the record: a constant pool entry of the right
sort, or the caches that resolution filled. -/
def Insn.consistent (i : Insn) : Bool :=
  match i.kind with
  | .getstatic | .putstatic | .getfield | .putfield =>
      match i.operand with
      | .field f => f.reprKind ≠ .void
      | _ => false
  | .new | .checkcast | .instanceof | .anewarray =>
      match i.operand with
      | .classInfo _ => true
      | _ => false
  | .invokestatic | .invokevirtual | .invokeinterface | .invokespecial =>
      match i.operand with
      | .methodref m => m.method.all fun md => md.intrinsic.all isIntrinsic
      | _ => false
  | .invokedynamic =>
      match i.operand with
      | .indyInfo _ => true
      | _ => false
  | .invokevtableMonomorphic =>
      match i.ic with
      | .method _ => true
      | _ => false
  | .invokeitableMonomorphic =>
      match i.operand with
      | .methodref m => m.method.isSome
      | _ => false
  | _ => true

def Awaiting (orig : Insn) : Suspended → Prop
  | .getstaticPutstatic f => (orig.kind = .getstatic ∨ orig.kind = .putstatic) ∧
      orig.operand = .field f ∧ f.classdesc ≠ none
  | .newInst d => orig.kind = .new ∧ ∃ c, orig.operand = .classInfo c ∧ c.classdesc = some d
  | .invokestatic => orig.kind = .invokestatic ∧
      ∃ m, orig.operand = .methodref m ∧ m.classdesc ≠ none

/-- A handler that keeps the record consistent and its operation, and runs what it has written. -/
structure Sound (i : Insn) (x : Insn × Status) : Prop where
  consistent : x.1.consistent
  operation : operation x.1.kind = operation i.kind
  tame : x.2 ≠ .wild
  executed : ∀ j, x.2 = .executed j → j = x.1
  awaiting : ∀ c, x.2 = .suspended c → Awaiting i c

variable {i : Insn}

theorem Sound.thrown (h : i.consistent) : Sound i (i, .thrown) :=
  ⟨h, rfl, by simp, by simp, by simp⟩

theorem Sound.retry (h : i.consistent) : Sound i (i, .retry) :=
  ⟨h, rfl, by simp, by simp, by simp⟩

variable {c : Suspended}

theorem Sound.suspended (h : i.consistent) (ha : Awaiting i c) : Sound i (i, .suspended c) :=
  ⟨h, rfl, by simp, by simp, fun _ hc => Status.suspended.inj hc ▸ ha⟩

variable {j : Insn}

theorem Sound.run {i : Insn} (h : j.consistent) (ho : TraceJvm.operation j.kind = TraceJvm.operation
    i.kind) :
    Sound i (j, .executed j) :=
  ⟨h, ho, by simp, fun _ hk => (Status.executed.inj hk).symm, by simp⟩

variable {b : Bool} {t : TypeKind}

theorem staticKind_spec (h : t ≠ .void) : ∃ k, getstaticPutstaticResolvedKind b t = some k ∧
      operation k = (if b then .putstatic else .getstatic) ∧
      ∀ a v o c c', (⟨k, a, v, o, c, c'⟩ : Insn).consistent := by
  cases t with
  | void => exact absurd rfl h
  | _ => cases b <;> exact ⟨_, rfl, rfl, fun _ _ _ _ _ => rfl⟩

theorem fieldKind_spec (h : t ≠ .void) : ∃ k, getfieldPutfieldResolvedKind b t = some k ∧
      operation k = (if b then .putfield else .getfield) ∧
      ∀ a v o c c', (⟨k, a, v, o, c, c'⟩ : Insn).consistent := by
  cases t with
  | void => exact absurd rfl h
  | _ => cases b <;> exact ⟨_, rfl, rfl, fun _ _ _ _ _ => rfl⟩

variable {k : InsnKind}

theorem intrinsic_spec (h : isIntrinsic k) :
    operation k = .invokestatic ∧ ∀ a v o c c', (⟨k, a, v, o, c, c'⟩ : Insn).consistent := by
  cases k <;> first | exact ⟨rfl, fun _ _ _ _ _ => rfl⟩ | cases h

variable {r : InitReply}

variable {f : CpField}

theorem finishStatic_sound (h : i.consistent)
    (hf : f.reprKind ≠ .void) (hk : i.kind = .getstatic ∨ i.kind = .putstatic) :
    Sound i (finishStatic f r i) := by
  obtain ⟨k, hkind, hop, hcons⟩ := staticKind_spec (b := decide (i.kind = .putstatic)) hf
  unfold finishStatic
  split
  · exact .thrown h
  split
  · exact .thrown h
  split
  · exact .thrown h
  rw [hkind]
  refine .run (hcons _ _ _ _ _) ?_
  rcases hk with hk | hk <;> (rw [hk] at hop ⊢; exact hop)

theorem finishNew_sound {c : ℕ} (h : i.consistent)
    (hk : i.kind = .new) : Sound i (finishNew c r i) := by
  unfold finishNew
  split
  · split
    · exact .thrown h
    · exact .retry h
  · split
    · exact ⟨rfl, by rw [hk]; rfl, by simp, by simp, by simp⟩
    · exact .run rfl (by rw [hk]; rfl)

theorem finishInvokestatic_sound (h : i.consistent)
    (hk : i.kind = .invokestatic) : Sound i (finishInvokestatic b r i) := by
  unfold finishInvokestatic
  cases ho : i.operand with
  | methodref m =>
    dsimp only
    split
    · exact .thrown h
    cases hm : m.method with
    | none => exact .thrown h
    | some md =>
      dsimp only
      split
      · cases hi : md.intrinsic with
        | none => exact .run rfl (by rw [hk]; rfl)
        | some k =>
          have hint : isIntrinsic k := by
            simpa [Insn.consistent, hk, ho, hm, hi] using h
          obtain ⟨hop, hcons⟩ := intrinsic_spec hint
          exact .run (hcons _ _ _ _ _) (hop.trans (by rw [hk]; rfl))
      · exact .run rfl (by rw [hk]; rfl)
  | _ => simp [Insn.consistent, hk, ho] at h

variable {obj : Option ℕ}

theorem resolveGetfieldPutfield_sound (h : i.consistent)
    (hk : i.kind = .getfield ∨ i.kind = .putfield) : Sound i (resolveGetfieldPutfield obj i) := by
  have hop : ∀ k, operation k = (if decide (i.kind = .putfield) then .putfield else .getfield) →
      operation k = operation i.kind := by
    intro k hkop
    rcases hk with hk | hk <;> (rw [hk] at hkop ⊢; exact hkop)
  unfold resolveGetfieldPutfield
  cases ho : i.operand with
  | field f =>
    have hf : f.reprKind ≠ .void := by
      rcases hk with hk | hk <;> simpa [Insn.consistent, hk, ho] using h
    obtain ⟨k, hkind, hkop, hcons⟩ := fieldKind_spec (b := decide (i.kind = .putfield)) hf
    dsimp only
    split
    · exact .thrown h
    split
    · exact .retry h
    split
    · exact .thrown h
    rw [hkind]
    exact .run (hcons _ _ _ _ _) (hop k hkop)
  | _ => rcases hk with hk | hk <;> simp [Insn.consistent, hk, ho] at h

theorem resolveClassOperand_sound (h : i.consistent)
    (hi : ∃ c, i.operand = .classInfo c) (hop : operation k = operation i.kind)
    (hk : ∀ a v o c c', (⟨k, a, v, o, c, c'⟩ : Insn).consistent) :
    Sound i (resolveClassOperand k i) := by
  obtain ⟨c, hc⟩ := hi
  unfold resolveClassOperand
  rw [hc]
  dsimp only
  split
  · exact .thrown h
  split
  · exact .thrown h
  exact .run (hk _ _ _ _ _) hop

variable {T : Tables}

variable {m : CpMethodInfo}

theorem resolveInterfaceMethod_sound {receiver : ℕ} {md : Method}
    {i : Insn} (h : j.consistent) (hj : j.kind = .invokeinterface)
    (ho : j.operand = .methodref m) (hm : m.method = some md)
    (hop : operation i.kind = .invokeinstance) :
    Sound i (resolveInterfaceMethod T receiver m md j) := by
  unfold resolveInterfaceMethod
  dsimp only
  split
  · refine ⟨?_, ?_, by simp, by simp, by simp⟩
    · simpa [Insn.consistent, hj, ho] using h
    · rw [hj, hop]
      rfl
  · split
    · exact .run rfl hop.symm
    · exact .run (by simp [Insn.consistent, ho, hm]) hop.symm

theorem resolveVirtualMethod_sound {receiver : ℕ} {md : Method}
    {i : Insn} (h : j.consistent) (hj : j.kind = .invokevirtual)
    (ho : j.operand = .methodref m) (hm : m.method = some md)
    (hop : operation i.kind = .invokeinstance) :
    Sound i (resolveVirtualMethod T receiver m md j) := by
  unfold resolveVirtualMethod
  dsimp only
  split
  · exact .run rfl hop.symm
  split
  · refine resolveInterfaceMethod_sound ?_ rfl ho hm hop
    simpa [Insn.consistent, hj, ho] using h
  · split
    · exact .run rfl hop.symm
    · exact .run rfl hop.symm

theorem resolveInstanceCall_sound (h : i.consistent)
    (hk : i.kind = .invokevirtual ∨ i.kind = .invokeinterface ∨ i.kind = .invokespecial) :
    Sound i (resolveInstanceCall T obj i) := by
  have hop : operation i.kind = .invokeinstance := by
    rcases hk with hk | hk | hk <;> (rw [hk]; rfl)
  unfold resolveInstanceCall
  cases ho : i.operand with
  | methodref m =>
    have hcons : ∀ n k, k = .invokevirtual ∨ k = .invokeinterface ∨ k = .invokespecial →
        (⟨k, n, i.returns, .methodref m, i.ic, i.ic2⟩ : Insn).consistent := by
      intro n k hk'
      rcases hk with hk | hk | hk <;> rcases hk' with rfl | rfl | rfl <;>
        simpa [Insn.consistent, hk, ho] using h
    dsimp only
    cases obj with
    | none => exact ⟨hcons (m.argsCount + 1) i.kind hk, rfl, by simp, by simp, by simp⟩
    | some receiver =>
      cases hm : m.method with
      | none => exact ⟨hcons (m.argsCount + 1) i.kind hk, rfl, by simp, by simp, by simp⟩
      | some md =>
        dsimp only
        split
        · split
          · exact ⟨hcons (m.argsCount + 1) i.kind hk, rfl, by simp, by simp, by simp⟩
          · split
            · exact .run rfl hop.symm
            · exact .run rfl hop.symm
        split
        · rename_i hi
          exact resolveInterfaceMethod_sound (hcons (m.argsCount + 1) i.kind hk)
            hi.1 rfl hm hop
        · exact resolveVirtualMethod_sound
            (hcons (m.argsCount + 1) .invokevirtual (.inl rfl)) rfl rfl hm hop
  | _ => rcases hk with hk | hk | hk <;> simp [Insn.consistent, hk, ho] at h

theorem resolveInvokedynamic_sound (h : i.consistent) (hk : i.kind = .invokedynamic) :
    Sound i (resolveInvokedynamic i) := by
  unfold resolveInvokedynamic
  cases ho : i.operand with
  | indyInfo d =>
    dsimp only
    split
    · exact .thrown h
    · exact .run rfl (by rw [hk]; rfl)
  | _ => simp [Insn.consistent, hk, ho] at h

theorem executeMonomorphic_sound (h : i.consistent)
    (hk : i.kind = .invokevtableMonomorphic ∨ i.kind = .invokeitableMonomorphic) :
    Sound i (executeMonomorphic T obj i) := by
  unfold executeMonomorphic
  split
  · exact .thrown h
  split
  · exact .run h rfl
  split
  · rename_i hk
    cases hic : i.ic with
    | method target => exact .run rfl (by rw [hk]; rfl)
    | _ => simp [Insn.consistent, hk, hic] at h
  · rename_i hv
    have hk := hk.resolve_left hv
    cases ho : i.operand with
    | methodref m =>
      cases hm : m.method with
      | none => simp [Insn.consistent, hk, ho, hm] at h
      | some md =>
        dsimp only
        rw [hm]
        exact .run rfl (by rw [hk]; rfl)
    | _ => simp [Insn.consistent, hk, ho] at h

/-- Every arrival at a consistent instruction, suspended or not. -/
theorem dispatch_sound (T : Tables) (obj : Option ℕ) (r : InitReply)
    (h : i.consistent) : Sound i (dispatch T obj r i) := by
  have hstatic : i.kind = .getstatic ∨ i.kind = .putstatic → Sound i (match i.operand with
      | .field f =>
        if f.classdesc = none then (i, .thrown)
        else if r.ready then finishStatic f r i else (i, .suspended (.getstaticPutstatic f))
      | _ => (i, .wild)) := by
    intro hk
    cases ho : i.operand with
    | field f =>
      have hf : f.reprKind ≠ .void := by
        rcases hk with hk | hk <;> simpa [Insn.consistent, hk, ho] using h
      dsimp only
      split
      · exact .thrown h
      rename_i hcls
      split
      · exact finishStatic_sound h hf hk
      · exact .suspended h ⟨hk, ho, hcls⟩
    | _ => rcases hk with hk | hk <;> simp [Insn.consistent, hk, ho] at h
  have hclass : i.kind = .new ∨ i.kind = .checkcast ∨ i.kind = .instanceof ∨ i.kind = .anewarray →
      ∃ c, i.operand = .classInfo c := by
    intro hk
    cases ho : i.operand with
    | classInfo c => exact ⟨c, rfl⟩
    | _ => rcases hk with hk | hk | hk | hk <;> simp [Insn.consistent, hk, ho] at h
  unfold dispatch
  split
  · rename_i hk
    exact hstatic (.inl hk)
  · rename_i hk
    exact hstatic (.inr hk)
  · rename_i hk
    obtain ⟨c, hc⟩ := hclass (.inl hk)
    rw [hc]
    dsimp only
    split
    · exact .thrown h
    rename_i d hd
    split
    · exact finishNew_sound h hk
    · exact .suspended h ⟨hk, c, hc, hd⟩
  · rename_i hk
    cases ho : i.operand with
    | methodref m =>
      dsimp only
      split
      · exact .thrown h
      rename_i hcls
      split
      · exact finishInvokestatic_sound h hk
      · exact .suspended h ⟨hk, m, ho, hcls⟩
    | _ => simp [Insn.consistent, hk, ho] at h
  · rename_i hk
    exact resolveGetfieldPutfield_sound h (.inl hk)
  · rename_i hk
    exact resolveGetfieldPutfield_sound h (.inr hk)
  · rename_i hk
    exact resolveClassOperand_sound h (hclass (.inr (.inl hk))) (by rw [hk]; rfl)
      fun _ _ _ _ _ => rfl
  · rename_i hk
    exact resolveClassOperand_sound h (hclass (.inr (.inr (.inl hk)))) (by rw [hk]; rfl)
      fun _ _ _ _ _ => rfl
  · rename_i hk
    exact resolveClassOperand_sound h (hclass (.inr (.inr (.inr hk)))) (by rw [hk]; rfl)
      fun _ _ _ _ _ => rfl
  · rename_i hk
    exact resolveInstanceCall_sound h (.inl hk)
  · rename_i hk
    exact resolveInstanceCall_sound h (.inr (.inl hk))
  · rename_i hk
    exact resolveInstanceCall_sound h (.inr (.inr hk))
  · rename_i hk
    exact resolveInvokedynamic_sound h hk
  · rename_i hk
    exact executeMonomorphic_sound h (.inl hk)
  · rename_i hk
    exact executeMonomorphic_sound h (.inr hk)
  · exact .run h rfl

def soloStep (T : Tables) (i : Insn) (x : Option ℕ × InitReply) : Insn :=
  (dispatch T x.1 { x.2 with ready := true } i).1

/-- The record that one thread leaves behind after a sequence of executions. -/
def soloRun (T : Tables) (orig : Insn) (xs : List (Option ℕ × InitReply)) : Insn :=
  xs.foldl (soloStep T) orig

theorem soloRun_snoc (T : Tables) (orig : Insn) (xs : List (Option ℕ × InitReply))
    (x : Option ℕ × InitReply) :
    soloRun T orig (xs ++ [x]) = soloStep T (soloRun T orig xs) x := by
  simp [soloRun, List.foldl_append]

variable {orig : Insn}

theorem soloRun_consistent (T : Tables) (h : orig.consistent) (xs : List (Option ℕ × InitReply)) :
    (soloRun T orig xs).consistent ∧
      operation (soloRun T orig xs).kind = operation orig.kind := by
  induction xs using List.reverseRecOn with
  | nil => exact ⟨h, rfl⟩
  | append_singleton xs x ih =>
    rw [soloRun_snoc]
    have hs := dispatch_sound T x.1 { x.2 with ready := true } ih.1
    exact ⟨hs.consistent, hs.operation.trans ih.2⟩

/-- The kinds whose resolution awaits `initialize_class`. -/
def mayAwait : InsnKind → Bool
  | .getstatic | .putstatic | .new | .invokestatic => true
  | _ => false

/-- The kinds that the awaiting resolutions end in. Their handlers leave the record alone. -/
def isFinal : InsnKind → Bool
  | .getstaticB | .getstaticC | .getstaticS | .getstaticI | .getstaticJ | .getstaticF
  | .getstaticD | .getstaticZ | .getstaticL | .putstaticB | .putstaticC | .putstaticS
  | .putstaticI | .putstaticJ | .putstaticF | .putstaticD | .putstaticZ | .putstaticL
  | .newResolved | .invokestaticResolved => true
  | k => isIntrinsic k

theorem dispatch_of_isFinal (h : isFinal i.kind) : dispatch T obj r i = (i, .executed i) := by
  unfold dispatch
  split <;> first | rfl | (rename_i hk; rw [hk] at h; cases h)

theorem staticKind_final (h : getstaticPutstaticResolvedKind b t = some k) :
    isFinal k ∧ k ≠ .putstatic ∧ (b = false → inVoidTable k) := by
  cases t <;> cases b <;> cases h <;> exact ⟨rfl, by decide, by decide⟩

def resolvedForm (i : Insn) : Insn :=
  match i.operand with
  | .field f =>
      match f.field, getstaticPutstaticResolvedKind (i.kind = .putstatic) f.reprKind with
      | some fd, some k =>
          if fd.isStatic then { i with kind := k, ic := .staticAddress fd.staticAddress } else i
      | _, _ => i
  | .classInfo c =>
      match c.classdesc with
      | some d => { i with kind := .newResolved, operand := .classdesc d }
      | none => i
  | .methodref m =>
      match m.method with
      | some md => { i with kind := md.intrinsic.getD .invokestaticResolved, ic := .method md.id
                            args := m.argsCount, returns := m.returnsValue }
      | none => i
  | _ => i

/-- The result of a handler that either leaves the record or completes its resolution. -/
structure Resolves (orig : Insn) (i : Insn) (x : Insn × Status) : Prop where
  record : x.1 = i ∨ x.1 = resolvedForm orig ∧ isFinal (resolvedForm orig).kind
  executed : ∀ j, x.2 = .executed j → j = x.1 ∧ x.1 = resolvedForm orig
  tame : x.2 ≠ .wild

theorem Resolves.stay {orig i : Insn} {st : Status} (hw : st ≠ .wild)
    (he : ∀ j, st ≠ .executed j) : Resolves orig i (i, st) :=
  ⟨.inl rfl, fun j hj => absurd hj (he j), hw⟩

theorem finishStatic_resolves (ho : orig.operand = .field f) (hf : f.reprKind ≠ .void) :
    Resolves orig orig (finishStatic f r orig) := by
  obtain ⟨k, hkind, -, -⟩ := staticKind_spec (b := decide (orig.kind = .putstatic)) hf
  unfold finishStatic
  split
  · exact .stay (by simp) (by simp)
  split
  · exact .stay (by simp) (by simp)
  · rename_i fd hfd
    split
    · exact .stay (by simp) (by simp)
    rename_i hs
    have hs : fd.isStatic = true := by simpa using hs
    rw [hkind]
    have hform : resolvedForm orig =
        { orig with kind := k, ic := .staticAddress fd.staticAddress } := by
      simp [resolvedForm, ho, hfd, hkind, hs]
    refine ⟨.inr ⟨hform.symm, ?_⟩, fun j hj => ⟨(Status.executed.inj hj).symm, hform.symm⟩, by simp⟩
    rw [hform]
    exact (staticKind_final hkind).1

/-- Completing `getstatic` once more on the resolved record changes nothing. -/
theorem finishStatic_again
    (ho : orig.operand = .field f) (hf : f.reprKind ≠ .void) (hk : orig.kind = .getstatic) :
    Resolves orig (resolvedForm orig) (finishStatic f r (resolvedForm orig)) := by
  obtain ⟨k, hkind, -, -⟩ := staticKind_spec (b := false) hf
  unfold finishStatic
  split
  · exact .stay (by simp) (by simp)
  split
  · exact .stay (by simp) (by simp)
  · rename_i fd hfd
    split
    · exact .stay (by simp) (by simp)
    rename_i hs
    have hs : fd.isStatic = true := by simpa using hs
    have hform : resolvedForm orig =
        { orig with kind := k, ic := .staticAddress fd.staticAddress } := by
      simp [resolvedForm, ho, hfd, hk, hkind, hs]
    have hput : decide ((resolvedForm orig).kind = .putstatic) = false := by
      rw [hform]
      simpa using (staticKind_final hkind).2.1
    rw [hput, hkind]
    have hsame : ({ resolvedForm orig with kind := k, ic := .staticAddress fd.staticAddress } : Insn) =
        resolvedForm orig := by rw [hform]
    dsimp only
    rw [hsame]
    exact ⟨.inl rfl, fun j hj => ⟨(Status.executed.inj hj).symm, rfl⟩, by simp⟩

theorem finishNew_resolves {c : CpClass} {d : ℕ} {orig i : Insn}
    (ho : orig.operand = .classInfo c) (hd : c.classdesc = some d)
    (hi : i = orig ∨ i = resolvedForm orig) : Resolves orig i (finishNew d r i) := by
  have hform : resolvedForm orig = { orig with kind := .newResolved, operand := .classdesc d } := by
    simp [resolvedForm, ho, hd]
  have hsame : ({ i with kind := .newResolved, operand := .classdesc d } : Insn) =
      resolvedForm orig := by
    rcases hi with rfl | rfl <;> rw [hform]
  have hfinal : isFinal (resolvedForm orig).kind := by rw [hform]; rfl
  unfold finishNew
  split
  · split
    · exact .stay (by simp) (by simp)
    · exact .stay (by simp) (by simp)
  · dsimp only
    rw [hsame]
    split
    · exact ⟨.inr ⟨rfl, hfinal⟩, by simp, by simp⟩
    · exact ⟨.inr ⟨rfl, hfinal⟩, fun j hj => ⟨(Status.executed.inj hj).symm, rfl⟩, by simp⟩

theorem finishInvokestatic_resolves {orig i : Insn}
    (hc : orig.consistent) (hk : orig.kind = .invokestatic) (ho : orig.operand = .methodref m)
    (hb : b ∨ r.exception ∨ ∀ md, m.method = some md → md.intrinsic = none)
    (hi : i = orig ∨ i = resolvedForm orig) : Resolves orig i (finishInvokestatic b r i) := by
  have hio : i.operand = .methodref m := by
    rcases hi with rfl | rfl
    · exact ho
    · unfold resolvedForm
      rw [ho]
      dsimp only
      split
      · rfl
      · exact ho
  unfold finishInvokestatic
  rw [hio]
  dsimp only
  split
  · exact .stay (by simp) (by simp)
  rename_i hex
  split
  · exact .stay (by simp) (by simp)
  · rename_i md hmd
    have hform : resolvedForm orig = { orig with
        kind := md.intrinsic.getD .invokestaticResolved, ic := .method md.id
        args := m.argsCount, returns := m.returnsValue } := by
      simp [resolvedForm, ho, hmd]
    have hfinal : isFinal (resolvedForm orig).kind := by
      rw [hform]
      dsimp only
      cases hint : md.intrinsic with
      | none => rfl
      | some k =>
        have hk' : isIntrinsic k := by simpa [Insn.consistent, hk, ho, hmd, hint] using hc
        cases k <;> first | rfl | cases hk'
    have hkind : (if b then md.intrinsic.getD .invokestaticResolved else .invokestaticResolved) =
        md.intrinsic.getD .invokestaticResolved := by
      split
      · rfl
      · rename_i hbf
        have hnone : md.intrinsic = none := by
          rcases hb with hb | hb | hb
          · exact absurd hb hbf
          · exact absurd hb hex
          · exact hb md hmd
        rw [hnone]
        rfl
    have hsame : (⟨md.intrinsic.getD .invokestaticResolved, m.argsCount, m.returnsValue,
        .methodref m, .method md.id, i.ic2⟩ : Insn) = resolvedForm orig := by
      rw [hform, ho]
      rcases hi with rfl | rfl
      · rfl
      · rw [hform]
    rw [hkind, hsame]
    exact ⟨.inr ⟨rfl, hfinal⟩, fun j hj => ⟨(Status.executed.inj hj).symm, rfl⟩, by simp⟩

/-- Readiness of `initialize_class` decides only between suspension and completion. -/
theorem dispatch_ready (T : Tables) (obj : Option ℕ) (r : InitReply) (i : Insn) :
    dispatch T obj r i = dispatch T obj { r with ready := true } i ∨
      (dispatch T obj r i).1 = i := by
  cases hr : r.ready with
  | true =>
    refine .inl ?_
    obtain ⟨ready, e, st⟩ := r
    obtain rfl : ready = true := hr
    rfl
  | false =>
    unfold dispatch
    split
    case h_1 | h_2 =>
      rename_i hk
      cases ho : i.operand with
      | field f =>
        dsimp only
        by_cases hc : f.classdesc = none
        · exact .inl (by simp [hc])
        · exact .inr (by simp [hc, hr])
      | _ => exact .inl rfl
    case h_3 =>
      rename_i hk
      cases ho : i.operand with
      | classInfo c =>
        dsimp only
        cases hc : c.classdesc with
        | none => exact .inl rfl
        | some d => exact .inr (by simp [hr])
      | _ => exact .inl rfl
    case h_4 =>
      rename_i hk
      cases ho : i.operand with
      | methodref m =>
        dsimp only
        by_cases hc : m.classdesc = none
        · exact .inl (by simp [hc])
        · exact .inr (by simp [hc, hr])
      | _ => exact .inl rfl
    all_goals exact .inl rfl

theorem mayAwait_of_awaiting (h : Awaiting i c) : mayAwait i.kind := by
  cases c with
  | getstaticPutstatic f => rcases h.1 with hk | hk <;> (rw [hk]; rfl)
  | newInst d => rw [h.1]; rfl
  | invokestatic => rw [h.1]; rfl

theorem dispatch_resolves (T : Tables) (obj : Option ℕ) (r : InitReply)
    (hc : orig.consistent) (hm : mayAwait orig.kind) :
    Resolves orig orig (dispatch T obj { r with ready := true } orig) := by
  have hstatic : orig.kind = .getstatic ∨ orig.kind = .putstatic →
      Resolves orig orig (match orig.operand with
        | .field f =>
          if f.classdesc = none then (orig, .thrown) else finishStatic f { r with ready := true } orig
        | _ => (orig, .wild)) := by
    intro hk
    cases ho : orig.operand with
    | field f =>
      have hf : f.reprKind ≠ .void := by
        rcases hk with hk | hk <;> simpa [Insn.consistent, hk, ho] using hc
      dsimp only
      split
      · exact .stay (by simp) (by simp)
      · exact finishStatic_resolves ho hf
    | _ => rcases hk with hk | hk <;> simp [Insn.consistent, hk, ho] at hc
  unfold dispatch
  simp only [if_true]
  split
  · rename_i hk
    exact hstatic (.inl hk)
  · rename_i hk
    exact hstatic (.inr hk)
  · rename_i hk
    cases ho : orig.operand with
    | classInfo c =>
      dsimp only
      split
      · exact .stay (by simp) (by simp)
      · exact finishNew_resolves ho ‹_› (.inl rfl)
    | _ => simp [Insn.consistent, hk, ho] at hc
  · rename_i hk
    cases ho : orig.operand with
    | methodref m =>
      dsimp only
      split
      · exact .stay (by simp) (by simp)
      · exact finishInvokestatic_resolves hc hk ho (.inl rfl) (.inl rfl)
    | _ => simp [Insn.consistent, hk, ho] at hc
  all_goals (rename_i hk; first | (rw [hk] at hm; cases hm) | skip)
  cases hkind : orig.kind <;> simp_all [mayAwait]

theorem not_mayAwait_of_isFinal (h : isFinal k) : mayAwait k = false := by
  cases k <;> first | rfl | cases h

def Operation.awaits : Operation → Bool
  | .getstatic | .putstatic | .new | .invokestatic => true
  | _ => false

theorem awaits_of_mayAwait (h : mayAwait k) : (operation k).awaits := by
  cases k <;> first | rfl | cases h

theorem isFinal_of_awaits (hk : mayAwait k = false)
    (h : (operation k).awaits) : isFinal k := by
  cases k <;> first | rfl | (cases h; done) | cases hk

theorem soloRun_of_mayAwait (T : Tables) (hc : orig.consistent)
    (hm : mayAwait orig.kind) (xs : List (Option ℕ × InitReply)) :
    soloRun T orig xs = orig ∨
      soloRun T orig xs = resolvedForm orig ∧ isFinal (resolvedForm orig).kind := by
  induction xs using List.reverseRecOn with
  | nil => exact .inl rfl
  | append_singleton xs x ih =>
    rw [soloRun_snoc]
    rcases ih with ih | ⟨ih, hf⟩
    · rw [ih]
      exact (dispatch_resolves T x.1 x.2 hc hm).record
    · rw [ih, soloStep, dispatch_of_isFinal hf]
      exact .inr ⟨rfl, hf⟩

theorem soloRun_eq_of_mayAwait (T : Tables) (hc : orig.consistent)
    (xs : List (Option ℕ × InitReply)) (hk : mayAwait (soloRun T orig xs).kind) :
    soloRun T orig xs = orig := by
  cases hm : mayAwait orig.kind with
  | true =>
    rcases soloRun_of_mayAwait T hc hm xs with h | ⟨h, hf⟩
    · exact h
    · rw [h, not_mayAwait_of_isFinal hf] at hk
      cases hk
  | false =>
    have hop := awaits_of_mayAwait hk
    rw [(soloRun_consistent T hc xs).2] at hop
    have hf := isFinal_of_awaits hm hop
    clear hk
    induction xs using List.reverseRecOn with
    | nil => rfl
    | append_singleton xs x ih =>
      rw [soloRun_snoc, ih, soloStep, dispatch_of_isFinal hf]

/-- A resolution that was completed after a suspension could have been completed at once. -/
theorem solo_resolvedForm (T : Tables) (ha : Awaiting orig c)
    (hf : isFinal (resolvedForm orig).kind) :
    soloRun T orig [(none, ⟨true, false, 4⟩)] = resolvedForm orig := by
  have hne : resolvedForm orig ≠ orig := by
    intro h
    rw [h] at hf
    have hm := mayAwait_of_awaiting ha
    rw [not_mayAwait_of_isFinal hf] at hm
    cases hm
  cases c with
  | getstaticPutstatic f =>
    obtain ⟨hk, ho, hcls⟩ := ha
    have hform : resolvedForm orig = (finishStatic f ⟨true, false, 4⟩ orig).1 := by
      cases hfd : f.field with
      | none => simp [resolvedForm, ho, hfd] at hne
      | some fd =>
        cases hkind : getstaticPutstaticResolvedKind (decide (orig.kind = .putstatic)) f.reprKind with
        | none => simp [resolvedForm, ho, hfd, hkind] at hne
        | some k =>
          cases hs : fd.isStatic with
          | false => simp [resolvedForm, ho, hfd, hkind, hs] at hne
          | true => simp [resolvedForm, finishStatic, ho, hfd, hkind, hs]
    rw [hform]
    rcases hk with hk | hk <;> simp [soloRun, soloStep, dispatch, hk, ho, hcls]
  | newInst d =>
    obtain ⟨hk, c, ho, hd⟩ := ha
    simp [soloRun, soloStep, dispatch, hk, ho, hd, finishNew, resolvedForm]
  | invokestatic =>
    obtain ⟨hk, m, ho, hcls⟩ := ha
    cases hm : m.method with
    | none => simp [resolvedForm, ho, hm] at hne
    | some md =>
      simp [soloRun, soloStep, dispatch, hk, ho, hcls, finishInvokestatic, resolvedForm, hm]

/-- `intrinsify` would rewrite the resolved call. -/
def Insn.intrinsified (i : Insn) : Bool :=
  match i.operand with
  | .methodref m => m.method.any fun md => md.intrinsic.isSome
  | _ => false

/-- The step does not complete, by a resumption, the resolution of a `putstatic` of a static field
or of an `invokestatic` whose target is intrinsified. -/
def resolveOk (orig : Insn) (s : ResolveState) : ResolveEvent → Bool
  | .resume t r =>
      match s.thread t with
      | .suspended (.getstaticPutstatic f) =>
          !(r.ready && !r.exception && decide (orig.kind = .putstatic) &&
            f.field.any fun fd => fd.isStatic)
      | .suspended .invokestatic => !(r.ready && !r.exception && orig.intrinsified)
      | _ => true
  | _ => true

variable {x : Insn × Status}

theorem jmpVoid_resolves {orig i : Insn} (h : Resolves orig i x)
    (hv : inVoidTable (resolvedForm orig).kind) : Resolves orig i (jmpVoid x) := by
  obtain ⟨j, st⟩ := x
  cases st with
  | executed k =>
    obtain ⟨rfl, hj⟩ := h.executed k rfl
    have hk : inVoidTable k.kind := by
      have hj : k = resolvedForm orig := hj
      rw [hj]
      exact hv
    simpa [jmpVoid, hk] using h
  | _ => exact h

/-- A resumption leaves the record as it found it or completes the resolution, and does not jump
into the void. -/
theorem resume_resolves {orig i : Insn} (hc : orig.consistent) (ha : Awaiting orig c) (hr : r.ready)
    (hi : i = orig ∨ i = resolvedForm orig ∧ isFinal (resolvedForm orig).kind)
    (hput : r.exception ∨ orig.kind ≠ .putstatic ∨
      ∀ f, c = .getstaticPutstatic f → ∀ fd, f.field = some fd → fd.isStatic = false)
    (hint : r.exception ∨ orig.intrinsified = false) :
    Resolves orig i (resume c r i) := by
  unfold resume
  simp only [hr, Bool.not_true, Bool.false_eq_true, if_false]
  cases c with
  | getstaticPutstatic f =>
    obtain ⟨hk, ho, -⟩ := ha
    have hf : f.reprKind ≠ .void := by
      rcases hk with hk | hk <;> simpa [Insn.consistent, hk, ho] using hc
    dsimp only
    by_cases hstop : r.exception ∨ ∀ fd, f.field = some fd → fd.isStatic = false
    · have hthrown : finishStatic f r i = (i, .thrown) := by
        unfold finishStatic
        rcases hstop with hex | hns
        · simp [hex]
        · cases hfd : f.field with
          | none => simp
          | some fd => simp [hns fd hfd]
      rw [hthrown]
      exact .stay (by simp) (by simp)
    · rw [not_or] at hstop
      have hget : orig.kind = .getstatic := by
        rcases hput with hput | hput | hput
        · exact absurd hput hstop.1
        · exact hk.resolve_right hput
        · exact absurd (hput f rfl) hstop.2
      have hvoid : inVoidTable (resolvedForm orig).kind := by
        obtain ⟨k, hkind, -, -⟩ := staticKind_spec (b := false) hf
        have hkv := (staticKind_final hkind).2.2 rfl
        cases hfd : f.field with
        | none => simp [resolvedForm, ho, hfd, hget, inVoidTable]
        | some fd =>
          cases hs : fd.isStatic with
          | false => simp [resolvedForm, ho, hfd, hget, hkind, hs, inVoidTable]
          | true => simpa [resolvedForm, ho, hfd, hget, hkind, hs] using hkv
      refine jmpVoid_resolves ?_ hvoid
      rcases hi with rfl | ⟨rfl, -⟩
      · exact finishStatic_resolves ho hf
      · exact finishStatic_again ho hf hget
  | newInst d =>
    obtain ⟨hk, c, ho, hd⟩ := ha
    refine jmpVoid_resolves (finishNew_resolves ho hd (hi.imp id And.left)) ?_
    simp [resolvedForm, ho, hd, inVoidTable]
  | invokestatic =>
    obtain ⟨hk, m, ho, -⟩ := ha
    have hnone : r.exception ∨ ∀ md, m.method = some md → md.intrinsic = none := by
      refine hint.imp id fun h md hmd => ?_
      simpa [Insn.intrinsified, ho, hmd] using h
    by_cases hex : r.exception
    · have hthrown : finishInvokestatic false r i = (i, .thrown) := by
        have hio : i.operand = .methodref m := by
          rcases hi with rfl | ⟨rfl, -⟩
          · exact ho
          · unfold resolvedForm
            rw [ho]
            dsimp only
            split
            · rfl
            · exact ho
        simp [finishInvokestatic, hio, hex]
      dsimp only
      rw [hthrown]
      exact .stay (by simp) (by simp)
    · refine jmpVoid_resolves (finishInvokestatic_resolves hc hk ho (.inr hnone)
        (hi.imp id And.left)) ?_
      have hnone := hnone.resolve_left hex
      unfold resolvedForm
      rw [ho]
      dsimp only
      split
      · rename_i md hmd
        rw [hnone md hmd]
        rfl
      · rw [hk]; rfl

theorem finish_ne_suspended {d : ℕ} : (finishStatic f r i).2 ≠ .suspended c ∧ (finishNew d r i).2 ≠
    .suspended c ∧
      (finishInvokestatic false r i).2 ≠ .suspended c := by
  refine ⟨?_, ?_, ?_⟩
  · unfold finishStatic
    repeat' split
    all_goals simp
  · unfold finishNew
    repeat' split
    all_goals simp
  · unfold finishInvokestatic
    repeat' split
    all_goals simp

theorem jmpVoid_ne_suspended (h : x.2 ≠ .suspended c) : (jmpVoid x).2 ≠ .suspended c := by
  obtain ⟨j, st⟩ := x
  cases st with
  | executed k =>
    simp only [jmpVoid]
    split <;> simp
  | suspended c' => exact h
  | _ => simp [jmpVoid]

theorem resume_ne_suspended {c c' : Suspended} (hr : r.ready) :
    (resume c r i).2 ≠ .suspended c' := by
  unfold resume
  simp only [hr, Bool.not_true, Bool.false_eq_true, if_false]
  cases c with
  | getstaticPutstatic f => exact jmpVoid_ne_suspended (finish_ne_suspended (d := 0)).1
  | newInst d =>
    exact jmpVoid_ne_suspended (finish_ne_suspended (f := ⟨none, false, none, .void⟩)).2.1
  | invokestatic =>
    exact jmpVoid_ne_suspended
      (finish_ne_suspended (d := 0) (f := ⟨none, false, none, .void⟩)).2.2

variable {s : ResolveState}

theorem resolveOk_resume {t : ℕ}
    (ha : Awaiting orig c) (hr : r.ready) (ht : s.thread t = .suspended c)
    (hok : resolveOk orig s (.resume t r)) : (r.exception ∨ orig.kind ≠ .putstatic ∨
      ∀ f, c = .getstaticPutstatic f → ∀ fd, f.field = some fd → fd.isStatic = false) ∧
      (r.exception ∨ orig.intrinsified = false) := by
  simp only [resolveOk, ht] at hok
  cases c with
  | getstaticPutstatic f =>
    obtain ⟨-, ho, -⟩ := ha
    refine ⟨?_, .inr (by simp [Insn.intrinsified, ho])⟩
    by_cases hex : r.exception
    · exact .inl hex
    by_cases hk : orig.kind = .putstatic
    · refine .inr (.inr fun g hg fd hfd => ?_)
      cases hg
      simpa [hr, hex, hk, hfd] using hok
    · exact .inr (.inl hk)
  | newInst d =>
    obtain ⟨hk, c, ho, -⟩ := ha
    exact ⟨.inr (.inl (by simp [hk])), .inr (by simp [Insn.intrinsified, ho])⟩
  | invokestatic =>
    refine ⟨.inr (.inl (by simp [ha.1])), ?_⟩
    by_cases hex : r.exception
    · exact .inl hex
    · exact .inr (by simpa [hr, hex] using hok)

/-- The shared record is one that a single thread produces, every thread that got through executed
such a record with the operation of the original instruction, and no thread used a rewritten
operand or an empty table entry. -/
structure InterleavingInsensitive (T : Tables) (orig : Insn) (s : ResolveState) : Prop where
  insn : ∃ xs, s.insn = soloRun T orig xs
  executed : ∀ t j, s.thread t = .executed j →
    (∃ xs, j = soloRun T orig xs) ∧ operation j.kind = operation orig.kind
  tame : ∀ t, s.thread t ≠ .wild

/-- The invariant of a run: every suspended thread still remembers the original record. -/
structure RaceInv (T : Tables) (orig : Insn) (s : ResolveState) : Prop
    extends InterleavingInsensitive T orig s where
  awaiting : ∀ t c, s.thread t = .suspended c → Awaiting orig c

theorem RaceInv.put {t : ℕ}
    (hc : orig.consistent) (h : RaceInv T orig s) (hrec : ∃ xs, x.1 = soloRun T orig xs)
    (hexe : ∀ j, x.2 = .executed j → j = x.1) (htame : x.2 ≠ .wild)
    (hawait : ∀ c, x.2 = .suspended c → Awaiting orig c) : RaceInv T orig (s.put t x) := by
  have hcases : ∀ t', (s.put t x).thread t' = x.2 ∨ (s.put t x).thread t' = s.thread t' := by
    intro t'
    by_cases ht : t' = t
    · subst ht
      exact .inl (by simp [ResolveState.put])
    · exact .inr (by simp [ResolveState.put, ht])
  refine ⟨⟨hrec, fun t' j hj => ?_, fun t' => ?_⟩, fun t' c hs => ?_⟩
  · rcases hcases t' with h' | h'
    · rw [h'] at hj
      obtain rfl := hexe j hj
      obtain ⟨xs, hxs⟩ := hrec
      rw [hxs]
      exact ⟨⟨xs, rfl⟩, (soloRun_consistent T hc xs).2⟩
    · rw [h'] at hj
      exact h.executed t' j hj
  · rcases hcases t' with h' | h'
    · rw [h']
      exact htame
    · rw [h']
      exact h.tame t'
  · rcases hcases t' with h' | h'
    · rw [h'] at hs
      exact hawait c hs
    · rw [h'] at hs
      exact h.awaiting t' c hs

theorem resolveStep_inv (hc : orig.consistent) {s' : ResolveState}
    {e : ResolveEvent} (h : RaceInv T orig s) (hok : resolveOk orig s e)
    (hstep : resolveStep T s e = some s') : RaceInv T orig s' := by
  obtain ⟨xs, hxs⟩ := h.insn
  cases e with
  | execute t obj r =>
    have hs' : s' = s.put t (dispatch T obj r s.insn) := by
      simp only [resolveStep] at hstep
      split at hstep <;> simp_all
    have hcons : s.insn.consistent := by rw [hxs]; exact (soloRun_consistent T hc xs).1
    have hsound := dispatch_sound T obj r hcons
    rw [hs']
    refine h.put hc ?_ hsound.executed hsound.tame ?_
    · rcases dispatch_ready T obj r s.insn with hd | hd
      · exact ⟨xs ++ [(obj, r)], by rw [hd, soloRun_snoc, ← hxs, soloStep]⟩
      · exact ⟨xs, by rw [hd, ← hxs]⟩
    · intro c hcs
      have ha := hsound.awaiting c hcs
      have hsame := soloRun_eq_of_mayAwait T hc xs (by rw [← hxs]; exact mayAwait_of_awaiting ha)
      rw [hxs, hsame] at ha
      exact ha
  | resume t r =>
    simp only [resolveStep] at hstep
    split at hstep
    · rename_i c ht
      cases hstep
      have ha := h.awaiting t c ht
      by_cases hr : r.ready
      · have hi := soloRun_of_mayAwait T hc (mayAwait_of_awaiting ha) xs
        rw [← hxs] at hi
        obtain ⟨hput, hint⟩ := resolveOk_resume ha hr ht hok
        have hres := resume_resolves hc ha hr hi hput hint
        refine h.put hc ?_ (fun j hj => (hres.executed j hj).1) hres.tame
          fun c' hc' => absurd hc' (resume_ne_suspended hr)
        rcases hres.record with hrec | ⟨hrec, hf⟩
        · exact ⟨xs, hrec.trans hxs⟩
        · exact ⟨_, hrec.trans (solo_resolvedForm T ha hf).symm⟩
      · have hstay : resume c r s.insn = (s.insn, .suspended c) := by simp [resume, hr]
        rw [hstay]
        refine h.put hc ⟨xs, hxs⟩ (by simp) (by simp) fun c' hc' => ?_
        exact Status.suspended.inj hc' ▸ ha
    · cases hstep

/-- Resolution as one thread would do it, in every run that does not complete a `putstatic` or an
intrinsified call by a resumption. -/
theorem resolution_interleavingInsensitive {T : Tables} {orig : Insn} (hc : orig.consistent)
    {s : ResolveState}
    (h : Runs (resolveStep T) (fun s e => resolveOk orig s e) (.initial orig) s) :
    InterleavingInsensitive T orig s := by
  have hinit : RaceInv T orig (.initial orig) :=
    ⟨⟨⟨[], rfl⟩, by simp [ResolveState.initial], by simp [ResolveState.initial]⟩,
      by simp [ResolveState.initial]⟩
  have hinv := h.invariant (RaceInv T orig) hinit fun _ _ _ hs hok hstep =>
    resolveStep_inv hc hs hok hstep
  exact hinv.toInterleavingInsensitive

def noTables : Tables := ⟨fun _ _ => 0, fun _ _ _ => none, fun _ => 0⟩

/-- An access to the static `int` field of class 3. -/
def unresolvedStatic (kind : InsnKind) : Insn where
  kind := kind
  args := 0
  returns := false
  operand := .field ⟨some 3, true, some ⟨true, 7, 0, 64⟩, .int⟩
  ic := .null
  ic2 := .null

/-- Two threads read a static field. The first is suspended in `initialize_class`, the second
resolves the instruction meanwhile, and the first completes its resolution afterwards. -/
theorem resolution_interleavingInsensitive_getstatic :
    ∃ s, Runs (resolveStep noTables) (fun s e => resolveOk (unresolvedStatic .getstatic) s e)
        (.initial (unresolvedStatic .getstatic)) s ∧
      s.thread 0 = .executed s.insn ∧ s.insn.kind = .getstaticI ∧
      InterleavingInsensitive noTables (unresolvedStatic .getstatic) s := by
  have hrun : Runs (resolveStep noTables) (fun s e => resolveOk (unresolvedStatic .getstatic) s e)
      (.initial (unresolvedStatic .getstatic)) _ := runs_of_checkedRun
    (w := [.execute 0 none ⟨false, false, 2⟩, .execute 1 none ⟨true, false, 4⟩,
      .resume 0 ⟨true, false, 4⟩]) rfl
  exact ⟨_, hrun, rfl, rfl, resolution_interleavingInsensitive rfl hrun⟩

/-- Two threads write a static field under the same schedule, and the first one ends up reading
it. -/
theorem resumed_putstatic_reads :
    ¬ ∀ (T : Tables) (orig : Insn), orig.consistent → ∀ s : ResolveState,
      Reachable (resolveStep T) (.initial orig) s → InterleavingInsensitive T orig s := by
  intro hall
  have hrun : Reachable (resolveStep noTables) (.initial (unresolvedStatic .putstatic)) _ :=
    reachable_of_run
      (w := [.execute 0 none ⟨false, false, 2⟩, .execute 1 none ⟨true, false, 4⟩,
        .resume 0 ⟨true, false, 4⟩]) rfl
  have hop := ((hall _ _ rfl _ hrun).executed 0 _ rfl).2
  revert hop
  decide

end TraceJvm
