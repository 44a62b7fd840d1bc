import Mathlib.Algebra.Order.Ring.Int
import TraceJvm.CellMachine

/-! The cell of an `int` on the operand stack is sign-extended, and a local has the `int` in the
lower half of its cell. -/
namespace TraceJvm

open Transition List Option

/-- The cell of the operand stack, or the register, that stands for a value. -/
def JavaValue.Holds : JavaValue → Cell → Prop
  | .int v, c => c = signExtended v
  | .long v, c => c = v
  | .float v, c => c.i = v
  | .double v, c => c = v
  | .reference, _ => True
  | .unset, _ => True

def JavaValue.HoldsLow : JavaValue → Cell → Prop
  | .int v, c => c.i = v
  | v, c => v.Holds c

inductive Outcome.Agrees : Outcome JavaValue → Outcome Cell → Prop where
  | push {v : JavaValue} {c : Cell} (h : v.Holds c) : Agrees (.push v) (.push c)
  | next : Agrees .next .next
  | jump (taken : Bool) : Agrees (.jump taken) (.jump taken)
  | select (target : ℕ) : Agrees (.select target) (.select target)
  | throw : Agrees .throw .throw

section Cells

variable {v : BitVec 32} {c : Cell}

@[simp] theorem signExtended_i (v : BitVec 32) : (signExtended v).i = v := by
  unfold signExtended Cell.i
  ext i hi
  have hlt : i < 64 := by omega
  rw [BitVec.getElem_setWidth, BitVec.getLsbD_eq_getElem hlt, BitVec.getElem_signExtend hlt]
  simp [hi]

@[simp] theorem setI_i (c : Cell) (v : BitVec 32) : (c.setI v).i = v := by
  unfold Cell.setI Cell.i
  rw [BitVec.setWidth_append]
  simp

@[simp] theorem setWidth_i (v : BitVec 32) : Cell.i (v.setWidth 64) = v := by
  unfold Cell.i
  simp

@[simp] theorem signExtended_toInt (v : BitVec 32) : (signExtended v).toInt = v.toInt := by
  exact BitVec.toInt_signExtend_of_le (by decide)

theorem signExtended_setWidth {w : ℕ} (hw : w ≤ 32) (v : BitVec 32) :
    (signExtended v).setWidth w = v.setWidth w := by
  have h : ((signExtended v).setWidth 32).setWidth w = v.setWidth w := by
    have hi : (signExtended v).setWidth 32 = v := signExtended_i v
    rw [hi]
  rwa [BitVec.setWidth_setWidth_of_le _ hw] at h

theorem signExtended_signExtend {w : ℕ} (hw : w ≤ 32) (v : BitVec w) :
    signExtended (v.signExtend 32) = v.signExtend 64 := by
  apply BitVec.eq_of_toInt_eq
  unfold signExtended
  rw [BitVec.toInt_signExtend_of_le (by decide), BitVec.toInt_signExtend_of_le hw,
    BitVec.toInt_signExtend_of_le (by omega)]

theorem signExtended_of_msb (h : v.msb = false) : signExtended v = v.setWidth 64 :=
  BitVec.signExtend_eq_setWidth_of_msb_false h

theorem signExtended_setWidth_char (v : BitVec 16) :
    signExtended (v.setWidth 32) = v.setWidth 64 := by
  have hmsb : (v.setWidth 32).msb = false := by
    rw [BitVec.msb_setWidth]
    simp
  rw [signExtended_of_msb hmsb, BitVec.setWidth_setWidth (by omega)]

theorem signExtended_mask {n : ℕ} (hn : n ≤ 32) (b : BitVec 32) :
    (signExtended b &&& BitVec.ofNat 64 (2 ^ n - 1)).toNat =
      (b &&& BitVec.ofNat 32 (2 ^ n - 1)).toNat := by
  have hle : 2 ^ n ≤ 2 ^ 32 := Nat.pow_le_pow_right (by decide) hn
  have hi : (signExtended b).toNat % 2 ^ 32 = b.toNat := by
    have h := congrArg BitVec.toNat (signExtended_i b)
    simpa [Cell.i] using h
  rw [BitVec.toNat_and, BitVec.toNat_and, BitVec.toNat_ofNat, BitVec.toNat_ofNat,
    Nat.mod_eq_of_lt (by omega), Nat.mod_eq_of_lt (by omega), Nat.and_two_pow_sub_one_eq_mod,
    Nat.and_two_pow_sub_one_eq_mod, ← hi, Nat.mod_mod_of_dvd]
  exact Nat.pow_dvd_pow 2 hn

theorem loadJava_holds (k : TypeKind) (raw : BitVec 64) :
    (loadJava k raw).Holds (loadCell k raw) := by
  cases k with
  | boolean | byte | short => exact (signExtended_signExtend (by decide) _).symm
  | char => exact (signExtended_setWidth_char _).symm
  | float => exact setWidth_i _
  | double | int | long => rfl
  | void | reference => trivial

theorem setWidth_eq_signExtended_iff : v.setWidth 64 = signExtended v ↔ v.msb = false := by
  constructor
  · intro h
    have hmsb := congrArg BitVec.msb h
    rw [signExtended, BitVec.msb_signExtend] at hmsb
    simpa [BitVec.msb_setWidth] using hmsb.symm
  · exact fun h => (signExtended_of_msb h).symm

theorem setI_zero (v : BitVec 32) : Cell.setI 0 v = v.setWidth 64 := by
  have hz : BitVec.extractLsb' 32 32 (0 : Cell) = 0#32 := by decide
  rw [Cell.setI, hz]
  exact (BitVec.setWidth_eq_append (by decide)).symm

theorem JavaValue.Holds.low {v : JavaValue} (h : v.Holds c) : v.HoldsLow c := by
  cases v with
  | int v =>
    obtain rfl : c = signExtended v := h
    exact signExtended_i v
  | unset | long | float | double | reference => exact h

end Cells

section Handlers

variable {F : FloatUnit} {insn : ConcreteInsn} {x : External} {o : Outcome JavaValue}

theorem cellNullary_agrees (h : javaNullary insn x = some o) :
    ∃ o', cellNullary insn x = some o' ∧ o.Agrees o' := by
  unfold javaNullary at h
  unfold cellNullary
  generalize insn.kind = k at h ⊢
  split at h
  · cases h
    exact ⟨_, rfl, .push (loadJava_holds _ _)⟩
  · split at h <;> cases h <;> refine ⟨_, rfl, ?_⟩
    · exact .next
    · exact .jump true
    iterate 3 exact .push rfl
    · exact .push (setWidth_i _)
    all_goals exact .push trivial

variable {k : InsnKind}

theorem tests_of_accessKind {t : TypeKind} (h : accessKind k = some t)
    (v w : BitVec 32) : testZero k w = none ∧ testPair k v w = none := by
  cases k <;> first
    | exact ⟨rfl, rfl⟩
    | cases h

theorem arithmetic_of_accessKind {t : TypeKind} (h : accessKind k = some t) (a b : Cell) (n : ℕ) :
    intBinary k a b = none ∧ longBinary k a b = none ∧ longShift k a n = none := by
  cases k <;> first
    | exact ⟨rfl, rfl, rfl⟩
    | cases h

theorem narrowed_holds {w : ℕ} (hw : w ≤ 32) (v : BitVec 32) :
    (JavaValue.int ((v.setWidth w).signExtend 32)).Holds
      (((signExtended v).setWidth w).signExtend 64) := by
  rw [signExtended_setWidth hw]
  exact (signExtended_signExtend hw _).symm

theorem i2c_holds (v : BitVec 32) :
    (JavaValue.int ((v.setWidth 16).setWidth 32)).Holds
      (((signExtended v).setWidth 16).setWidth 64) := by
  rw [signExtended_setWidth (by decide)]
  exact (signExtended_setWidth_char _).symm

theorem cellOfInt_agrees {v : BitVec 32} (h : javaOfInt F insn v = some o) :
    ∃ o', cellUnary F insn x (signExtended v) = some o' ∧ o.Agrees o' := by
  unfold javaOfInt at h
  unfold cellUnary
  rw [signExtended_i, signExtended_toInt]
  generalize insn.kind = k at h ⊢
  split at h
  · rename_i b hb
    cases h
    exact ⟨_, by rw [hb], .jump b⟩
  · rename_i hb
    rw [hb]
    split at h <;> cases h <;> refine ⟨_, rfl, ?_⟩
    · exact .push rfl
    · exact .push rfl
    · exact .push (narrowed_holds (by decide) v)
    · exact .push (narrowed_holds (by decide) v)
    · exact .push (i2c_holds v)
    · exact .push (setWidth_i _)
    · exact .push rfl
    · split
      · exact .throw
      · exact .push trivial
    · split
      · exact .throw
      · exact .push trivial
    · exact .select _
    · exact .select _
    all_goals exact .next

/-- The handlers that take one value leave the cell of its result. -/
theorem cellUnary_agrees {v : JavaValue} {c : Cell} (hc : v.Holds c)
    (h : javaUnary F insn x v = some o) : ∃ o', cellUnary F insn x c = some o' ∧ o.Agrees o' := by
  cases v with
  | unset => cases h
  | int v =>
    obtain rfl : c = signExtended v := hc
    exact cellOfInt_agrees h
  | long v =>
    obtain rfl : c = v := hc
    unfold javaUnary at h
    unfold cellUnary
    generalize insn.kind = k at h ⊢
    dsimp only at h
    split at h <;> cases h <;> refine ⟨_, rfl, ?_⟩
    · exact .push rfl
    · exact .push rfl
    · exact .push (setWidth_i _)
    · exact .push rfl
    · exact .next
  | float v =>
    obtain rfl : c.i = v := hc
    unfold javaUnary at h
    unfold cellUnary
    generalize insn.kind = k at h ⊢
    dsimp only at h
    split at h <;> cases h <;> refine ⟨_, rfl, ?_⟩
    · exact .push (setWidth_i _)
    iterate 3 exact .push rfl
    · exact .next
  | double v =>
    obtain rfl : c = v := hc
    unfold javaUnary at h
    unfold cellUnary
    generalize insn.kind = k at h ⊢
    dsimp only at h
    split at h <;> cases h <;> refine ⟨_, rfl, ?_⟩
    iterate 7 exact .push rfl
    · exact .push (setWidth_i _)
    · exact .next
  | reference =>
    unfold javaUnary at h
    unfold cellUnary
    generalize insn.kind = k at h ⊢
    dsimp only at h
    split at h
    · rename_i t ht
      cases h
      exact ⟨_, by rw [ht, (tests_of_accessKind ht 0 c.i).1], .push (loadJava_holds _ _)⟩
    · rename_i ha
      rw [ha]
      split at h <;> cases h <;> refine ⟨_, rfl, ?_⟩
      · exact .push rfl
      · exact .push rfl
      · exact .push trivial
      · exact .jump _
      · exact .jump _
      iterate 3 exact .next

variable {b : BitVec 32}

theorem intBinary_agrees {a v : BitVec 32} (h : javaIntBinary k a b = some v)
    (hshr : k = .ishr → a.msb = false) :
    intBinary k (signExtended a) (signExtended b) = some (signExtended v) := by
  have hmask := signExtended_mask (show 5 ≤ 32 by decide) b
  unfold javaIntBinary at h
  unfold intBinary
  split at h <;> cases h
  · simp
  · simp
  · simp
  · simp
  · simp
  · simp
  · simp only [signExtended_i]
    exact congrArg (fun n => some (signExtended (a <<< n))) hmask
  · simp only [signExtended_i]
    rw [setWidth_eq_signExtended_iff.mpr]
    · exact congrArg (fun n => some (signExtended (a.sshiftRight n))) hmask
    · rw [BitVec.msb_sshiftRight]
      exact hshr rfl
  · simp only [signExtended_i]
    exact congrArg (fun n => some (signExtended (a >>> n))) hmask

theorem intBinary_eq_none {a : BitVec 32} (h : javaIntBinary k a b = none)
    (c d : Cell) : intBinary k c d = none := by
  cases k <;> first
    | rfl
    | cases h

theorem cellOfInts_agrees {a : BitVec 32} (h : javaOfInts insn b a = some o)
    (hshr : insn.kind = .ishr → a.msb = false) :
    ∃ o', cellBinary F insn x (signExtended b) (signExtended a) = some o' ∧ o.Agrees o' := by
  unfold javaOfInts at h
  unfold cellBinary
  rw [signExtended_i, signExtended_i]
  generalize insn.kind = k at h hshr ⊢
  split at h
  · rename_i v _ hv
    cases h
    exact ⟨_, by rw [intBinary_agrees hv hshr], .push rfl⟩
  · rename_i taken hv htest
    cases h
    refine ⟨.jump taken, ?_, .jump taken⟩
    rw [htest, intBinary_eq_none hv]
    cases k <;> first
      | rfl
      | cases htest
  · split at h <;> cases h <;> refine ⟨_, rfl, ?_⟩ <;> split
    · exact .throw
    · exact .push rfl
    · exact .throw
    · exact .push rfl

theorem cellOfLongs_agrees {a b : BitVec 64} (h : javaOfLongs insn b a = some o) :
    ∃ o', cellBinary F insn x b a = some o' ∧ o.Agrees o' := by
  unfold javaOfLongs at h
  unfold cellBinary
  generalize insn.kind = k at h ⊢
  split at h
  · rename_i v hv
    cases h
    refine ⟨.push v, ?_, .push rfl⟩
    rw [hv]
    cases k <;> first
      | rfl
      | cases hv
  · split at h <;> cases h <;> refine ⟨_, rfl, ?_⟩
    · split
      · exact .throw
      · exact .push rfl
    · split
      · exact .throw
      · exact .push rfl
    · exact .push rfl

theorem cellOfShift_agrees {a v : BitVec 64}
    (h : longShift insn.kind a (b &&& 0x3f#32).toNat = some v) :
    cellBinary F insn x (signExtended b) a = some (.push v) := by
  have hmask : (signExtended b &&& 0x3f#64).toNat = (b &&& 0x3f#32).toNat :=
    signExtended_mask (show 6 ≤ 32 by decide) b
  rw [← hmask] at h
  unfold cellBinary
  generalize insn.kind = k at h ⊢
  unfold longShift at h
  split at h <;> cases h
  all_goals rfl

variable {a : Cell}

theorem cellOfFloats_agrees {b : Cell}
    (h : javaBinary F insn x (.float b.i) (.float a.i) = some o) :
    ∃ o', cellBinary F insn x b a = some o' ∧ o.Agrees o' := by
  unfold javaBinary at h
  unfold cellBinary
  generalize insn.kind = k at h ⊢
  dsimp only at h
  split at h <;> cases h <;> refine ⟨_, rfl, ?_⟩
  · exact .push rfl
  · exact .push rfl
  all_goals exact .push (setWidth_i _)

theorem cellOfDoubles_agrees {b : Cell} (h : javaBinary F insn x (.double b) (.double a) = some o) :
    ∃ o', cellBinary F insn x b a = some o' ∧ o.Agrees o' := by
  unfold javaBinary at h
  unfold cellBinary
  generalize insn.kind = k at h ⊢
  dsimp only at h
  split at h <;> cases h <;> refine ⟨_, rfl, ?_⟩
  all_goals exact .push rfl

theorem cellOfIndex_agrees {index : BitVec 32}
    (h : javaBinary F insn x (.int index) .reference = some o) :
    ∃ o', cellBinary F insn x (signExtended index) a = some o' ∧ o.Agrees o' := by
  unfold javaBinary at h
  unfold cellBinary
  generalize insn.kind = k at h ⊢
  dsimp only at h
  split at h
  · rename_i t _ ht
    cases h
    obtain ⟨h₁, h₂, h₃⟩ := arithmetic_of_accessKind ht a (signExtended index)
      (signExtended index &&& 0x3f#64).toNat
    rw [h₁, h₂, h₃, (tests_of_accessKind ht a.i _).2, ht, signExtended_i]
    refine ⟨_, rfl, ?_⟩
    split
    · exact .throw
    · exact .push (loadJava_holds _ _)
  all_goals first
    | (cases h; exact ⟨_, rfl, .next⟩)
    | cases h

theorem cellOfReferences_agrees {b : Cell}
    (h : javaBinary F insn x .reference .reference = some o) :
    ∃ o', cellBinary F insn x b a = some o' ∧ o.Agrees o' := by
  unfold javaBinary at h
  unfold cellBinary
  generalize insn.kind = k at h ⊢
  dsimp only at h
  split at h <;> cases h <;> refine ⟨_, rfl, ?_⟩
  · exact .jump _
  · exact .jump _
  · exact .push rfl
  · exact .next

theorem cellOfPutfield_agrees {b : Cell} (hk : k = .putfieldJ ∨ k = .putfieldF ∨ k = .putfieldD)
    (h : (if insn.kind = k then some .next else none) = some o) :
    ∃ o', cellBinary F insn x b a = some o' ∧ o.Agrees o' := by
  simp only [ite_none_right_eq_some, some.injEq] at h
  obtain ⟨rfl, rfl⟩ := h
  refine ⟨.next, ?_, .next⟩
  unfold cellBinary
  generalize insn.kind = k at hk ⊢
  rcases hk with rfl | rfl | rfl
  all_goals rfl

/-- The handlers that take two values leave the cell of their result. -/
theorem cellBinary_agrees {v w : JavaValue} {b : Cell} (hb : v.Holds b) (ha : w.Holds a)
    (h : javaBinary F insn x v w = some o)
    (hshr : insn.kind = .ishr → ∀ n, w = .int n → n.msb = false) :
    ∃ o', cellBinary F insn x b a = some o' ∧ o.Agrees o' := by
  cases v with
  | unset => cases h
  | int b' =>
    obtain rfl : b = signExtended b' := hb
    cases w with
    | int a' =>
      obtain rfl : a = signExtended a' := ha
      exact cellOfInts_agrees h fun hk => hshr hk a' rfl
    | long a' =>
      obtain rfl : a = a' := ha
      obtain ⟨v, hv, rfl⟩ := map_eq_some_iff.mp h
      exact ⟨_, cellOfShift_agrees hv, .push rfl⟩
    | reference => exact cellOfIndex_agrees h
    | unset | float | double => cases h
  | long b' =>
    obtain rfl : b = b' := hb
    cases w with
    | long a' =>
      obtain rfl : a = a' := ha
      exact cellOfLongs_agrees h
    | reference => exact cellOfPutfield_agrees (.inl rfl) h
    | unset | int | float | double => cases h
  | float b' =>
    obtain rfl : b.i = b' := hb
    cases w with
    | float a' =>
      obtain rfl : a.i = a' := ha
      exact cellOfFloats_agrees h
    | reference => exact cellOfPutfield_agrees (.inr (.inl rfl)) h
    | unset | int | long | double => cases h
  | double b' =>
    obtain rfl : b = b' := hb
    cases w with
    | double a' =>
      obtain rfl : a = a' := ha
      exact cellOfDoubles_agrees h
    | reference => exact cellOfPutfield_agrees (.inr (.inr rfl)) h
    | unset | int | long | float => cases h
  | reference =>
    cases w with
    | reference => exact cellOfReferences_agrees h
    | unset | int | long | float | double => cases h

variable {vs : List JavaValue}

theorem ints_of_holds {cs : List Cell} {ns : List (BitVec 32)}
    (h : List.Forall₂ JavaValue.Holds vs cs) (hns : JavaValue.ints vs = some ns) :
    cs.map Cell.i = ns := by
  induction h generalizing ns with
  | nil => exact some.inj hns
  | cons hc _ ih =>
    rename_i v c vs cs _
    cases v with
    | int v =>
      obtain ⟨ns', hns', rfl⟩ := map_eq_some_iff.mp hns
      obtain rfl : c = signExtended v := hc
      rw [map_cons, signExtended_i, ih hns']
    | unset | long | float | double | reference => cases hns

/-- What a handler computes stands for what the instruction computes. -/
theorem cellCompute_agrees {cs : List Cell}
    (hcs : List.Forall₂ JavaValue.Holds vs cs) (h : javaCompute F insn x vs = some o)
    (hshr : insn.kind = .ishr → ∀ v n, vs = [v, .int n] → n.msb = false) :
    ∃ o', cellCompute F insn x cs = some o' ∧ o.Agrees o' := by
  unfold javaCompute at h
  unfold cellCompute
  split at h
  · rename_i hk
    obtain ⟨ns, hns, rfl⟩ := map_eq_some_iff.mp h
    rw [if_pos hk, ints_of_holds hcs hns]
    refine ⟨_, rfl, ?_⟩
    split
    · exact .throw
    · exact .push trivial
  · rename_i hk
    rw [if_neg hk]
    split at h
    · cases hcs
      exact cellNullary_agrees h
    · obtain _ | ⟨ha, _ | _⟩ := hcs
      exact cellUnary_agrees ha h
    · obtain _ | ⟨hb, _ | ⟨ha, _ | _⟩⟩ := hcs
      exact cellBinary_agrees hb ha h fun hk n hn => hshr hk _ n (by rw [hn])
    · rename_i v index
      obtain _ | ⟨-, _ | ⟨hi, _ | ⟨-, _ | _⟩⟩⟩ := hcs
      simp only [ite_none_right_eq_some, some.injEq] at h
      obtain ⟨hstore, rfl⟩ := h
      cases hi
      simp only [hstore, isSome_some, if_true, signExtended_i]
      refine ⟨_, rfl, ?_⟩
      split
      · exact .throw
      · exact .next
    · obtain _ | ⟨-, _ | ⟨-, _ | ⟨-, _ | ⟨-, _ | _⟩⟩⟩⟩ := hcs
      simp only [ite_none_right_eq_some, some.injEq] at h
      obtain ⟨hhash, rfl⟩ := h
      exact ⟨_, by rw [if_pos hhash], .push rfl⟩
    · cases h

end Handlers

/-- Two activations that differ only in the way their values are stored. -/
structure CellFrame.Agrees (f : CellFrame JavaValue) (g : CellFrame Cell) : Prop where
  method : f.method = g.method
  pc : f.pc = g.pc
  tos : f.tos = g.tos
  stack : List.Forall₂ JavaValue.Holds f.stack g.stack
  locals : List.Forall₂ JavaValue.HoldsLow f.locals g.locals
  entry : f.entry = g.entry

/-- The thread of the interpreter stands for the Java thread: the cell of every `int` on an operand
stack is its sign extension, and the lower half of the cell of every local of kind `int` is its
value. -/
structure CellThread.Agrees (s : CellThread JavaValue) (t : CellThread Cell) : Prop where
  methods : s.methods = t.methods
  throwing : s.throwing = t.throwing
  frames : List.Forall₂ CellFrame.Agrees s.frames t.frames

/-- The `int` that is shifted by an `ishr` is negative. -/
def CellFrame.shiftsNegative (f : CellFrame JavaValue) : Bool :=
  match f.stack with
  | _ :: .int a :: _ => a.msb
  | _ => false

/-- The steps that a run is allowed to take: no `ishr` of a negative `int`, no `dup2` of a `float`,
and no negative `int` from native code, unless in a sign-extended cell, or from a compiled body. -/
def properValues (s : CellThread JavaValue) : ThreadEvent → Bool
  | .exec _ =>
    match s.current with
    | some (f, _, insn) =>
      !(insn.kind = .ishr && f.shiftsNegative) && !(insn.kind = .dup2 && f.tos ≠ .int)
    | none => true
  | .native cell =>
    match s.current with
    | some (f, _, insn) =>
      match f.callee insn with
      | some (_, k) => k.representable ≠ .int || cell = signExtended cell.i
      | none => true
    | none => true
  | .aot v => !v.msb
  | _ => true

section Steps

variable {F : FloatUnit} {insn : ConcreteInsn} {x : External} {f : CellFrame JavaValue}
  {g : CellFrame Cell}

variable {v' : JavaValue}

theorem spill_holds {v : JavaValue} {c old : Cell} {t : TosKind} (hc : v.Holds c)
    (h : (javaDomain F).spill t old v = some v') :
    ∃ c', (cellDomain F).spill t old c = some c' ∧ v'.Holds c' := by
  change (if t = .void ∨ v.kind.tos = t then some v else none) = some v' at h
  simp only [ite_none_right_eq_some, some.injEq] at h
  obtain ⟨ht, rfl⟩ := h
  refine ⟨if t = .float then old.setI c.i else c, rfl, ?_⟩
  split
  · rename_i hfloat
    subst hfloat
    have ht' : v.kind.tos = .float := ht.resolve_left nofun
    cases v with
    | float v => exact (setI_i _ _).trans hc
    | unset | int | long | double | reference => cases ht'
  · exact hc

variable {cs : List Cell} {vs : List JavaValue}

theorem finish_agrees {o : Outcome JavaValue} {o' : Outcome Cell} {tos : TosKind} (h : f.Agrees g)
    (hst : List.Forall₂ JavaValue.Holds vs cs) (ho : o.Agrees o') :
    (f.finish insn tos vs o).1.Agrees (g.finish insn tos cs o').1 ∧
      (f.finish insn tos vs o).2 = (g.finish insn tos cs o').2 := by
  cases ho with
  | push hv =>
    exact ⟨{ h with pc := congrArg (· + 1) h.pc, tos := rfl, stack := .cons hv hst }, rfl⟩
  | next => exact ⟨{ h with pc := congrArg (· + 1) h.pc, tos := rfl, stack := hst }, rfl⟩
  | jump taken =>
    refine ⟨{ h with pc := ?_, tos := rfl, stack := hst }, rfl⟩
    simp only [CellFrame.finish, h.pc]
  | select target => exact ⟨{ h with pc := rfl, tos := rfl, stack := hst }, rfl⟩
  | throw => exact ⟨h, rfl⟩

variable {r : CellFrame JavaValue × Bool}

theorem compute_agrees {n : ℕ} {tos : TosKind} (h : f.Agrees g)
    (hshr : insn.kind = .ishr → f.shiftsNegative = false)
    (hr : f.compute (javaDomain F) insn x n tos = some r) :
    ∃ r', g.compute (cellDomain F) insn x n tos = some r' ∧ r.1.Agrees r'.1 ∧ r.2 = r'.2 := by
  unfold CellFrame.compute at hr ⊢
  simp only [ite_none_right_eq_some, map_eq_some_iff] at hr
  obtain ⟨hn, o, ho, rfl⟩ := hr
  rw [if_pos (h.stack.length_eq ▸ hn)]
  have htake := forall₂_take n h.stack
  obtain ⟨o', ho', hagree⟩ := cellCompute_agrees htake ho (by
    intro hk v a hva
    have hneg := hshr hk
    unfold CellFrame.shiftsNegative at hneg
    have hst := take_append_drop n f.stack
    rw [hva] at hst
    rw [← hst] at hneg
    exact hneg)
  refine ⟨_, by rw [show (cellDomain F).compute insn x (g.stack.take n) = some o' from ho']; rfl, ?_⟩
  exact finish_agrees h (forall₂_drop n h.stack) hagree

theorem getElem?_agrees {i : ℕ} {v : JavaValue} (h : f.Agrees g) (hv : f.locals[i]? = some v) :
    ∃ c, g.locals[i]? = some c ∧ v.HoldsLow c := by
  obtain ⟨hi, rfl⟩ := List.getElem?_eq_some_iff.mp hv
  have hi' : i < g.locals.length := h.locals.length_eq ▸ hi
  exact ⟨_, getElem?_eq_getElem hi', forall₂_iff_get.mp h.locals |>.2 i hi hi'⟩

theorem set_agrees {i : ℕ} {v : JavaValue} {c : Cell}
    (h : List.Forall₂ JavaValue.HoldsLow vs cs) (hv : v.HoldsLow c) :
    List.Forall₂ JavaValue.HoldsLow (vs.set i v) (cs.set i c) := by
  induction h generalizing i with
  | nil => exact .nil
  | cons hhead htail ih =>
    cases i with
    | zero => exact .cons hv htail
    | succ i => exact .cons hhead ih

theorem load_agrees {k : TypeKind} {v : JavaValue} {c : Cell} (hc : v.HoldsLow c)
    (h : (javaDomain F).load k v = some v') :
    ∃ c', (cellDomain F).load k c = some c' ∧ v'.Holds c' := by
  change (if v.kind = k then some v else none) = some v' at h
  simp only [ite_none_right_eq_some, some.injEq] at h
  obtain ⟨rfl, rfl⟩ := h
  cases v with
  | int v =>
    obtain rfl : c.i = v := hc
    exact ⟨_, rfl, rfl⟩
  | float v =>
    obtain rfl : c.i = v := hc
    exact ⟨_, rfl, setWidth_i _⟩
  | unset | long | double | reference => exact ⟨_, rfl, hc⟩

theorem store_agrees {k : TypeKind} {v old : JavaValue} {c d : Cell} (hc : v.Holds c)
    (h : (javaDomain F).store k old v = some v') :
    ∃ c', (cellDomain F).store k d c = some c' ∧ v'.HoldsLow c' := by
  change (if v.kind = k then some v else none) = some v' at h
  simp only [ite_none_right_eq_some, some.injEq] at h
  obtain ⟨rfl, rfl⟩ := h
  cases v with
  | int v =>
    obtain rfl : c = signExtended v := hc
    exact ⟨_, rfl, by simp [JavaValue.HoldsLow]⟩
  | float v =>
    obtain rfl : c.i = v := hc
    exact ⟨_, rfl, setI_i _ _⟩
  | unset | long | double | reference => exact ⟨_, rfl, hc⟩

theorem increment_agrees {n : BitVec 32} {v : JavaValue} {c : Cell} (hc : v.HoldsLow c)
    (h : (javaDomain F).increment n v = some v') :
    ∃ c', (cellDomain F).increment n c = some c' ∧ v'.HoldsLow c' := by
  cases v with
  | int v =>
    obtain rfl : c.i = v := hc
    cases h
    exact ⟨_, rfl, setI_i _ _⟩
  | unset | long | float | double | reference => cases h

/-- The stack instructions move whole cells. -/
theorem shuffleSlots_agrees {k : InsnKind} {vs' : List JavaValue}
    (hst : List.Forall₂ JavaValue.Holds vs cs) (h : shuffleSlots k vs = some vs') :
    ∃ cs', shuffleSlots k cs = some cs' ∧ List.Forall₂ JavaValue.Holds vs' cs' := by
  unfold shuffleSlots at h
  split at h <;> cases h
  · obtain _ | ⟨ha, hst⟩ := hst
    exact ⟨_, rfl, .cons ha (.cons ha hst)⟩
  · obtain _ | ⟨ha, _ | ⟨hb, hst⟩⟩ := hst
    exact ⟨_, rfl, .cons ha (.cons hb (.cons ha hst))⟩
  · obtain _ | ⟨ha, _ | ⟨hb, _ | ⟨hc, hst⟩⟩⟩ := hst
    exact ⟨_, rfl, .cons ha (.cons hb (.cons hc (.cons ha hst)))⟩
  · obtain _ | ⟨ha, _ | ⟨hb, hst⟩⟩ := hst
    exact ⟨_, rfl, .cons ha (.cons hb (.cons ha (.cons hb hst)))⟩
  · obtain _ | ⟨ha, _ | ⟨hb, _ | ⟨hc, hst⟩⟩⟩ := hst
    exact ⟨_, rfl, .cons ha (.cons hb (.cons hc (.cons ha (.cons hb hst))))⟩
  · obtain _ | ⟨ha, _ | ⟨hb, _ | ⟨hc, _ | ⟨hd, hst⟩⟩⟩⟩ := hst
    exact ⟨_, rfl, .cons ha (.cons hb (.cons hc (.cons hd (.cons ha (.cons hb hst)))))⟩
  · obtain _ | ⟨ha, hst⟩ := hst
    exact ⟨_, rfl, hst⟩
  · obtain _ | ⟨ha, _ | ⟨hb, hst⟩⟩ := hst
    exact ⟨_, rfl, hst⟩
  · obtain _ | ⟨ha, _ | ⟨hb, hst⟩⟩ := hst
    exact ⟨_, rfl, .cons hb (.cons ha hst)⟩

theorem duplicate_agrees {two : Bool} {r : CellFrame JavaValue} (h : f.Agrees g)
    (htwo : two = true → f.tos = .int)
    (hr : f.duplicate (javaDomain F) x two = some r) :
    ∃ r', g.duplicate (cellDomain F) x two = some r' ∧ r.Agrees r' := by
  obtain ⟨m, pc, tos, vs, ls, en⟩ := f
  obtain ⟨m', pc', tos', cs, ls', en'⟩ := g
  obtain ⟨rfl, rfl, rfl, hst, hls, rfl⟩ := h
  unfold CellFrame.duplicate at hr
  split at hr
  · rename_i hvs
    subst hvs
    obtain _ | ⟨ha, hst⟩ := hst
    obtain ⟨v, hv, rfl⟩ := map_eq_some_iff.mp hr
    obtain ⟨c, hc, hold⟩ := spill_holds ha hv
    cases hc
    refine ⟨_, rfl, ?_⟩
    exact ⟨rfl, rfl, rfl, .cons ha (.cons hold hst), hls, rfl⟩
  · rename_i hvs
    subst hvs
    obtain _ | ⟨ha, _ | ⟨hb, hst⟩⟩ := hst
    obtain ⟨v, hv, rfl⟩ := map_eq_some_iff.mp hr
    obtain ⟨c, hc, hold⟩ := spill_holds ha hv
    obtain rfl : tos = .int := htwo rfl
    cases hc
    refine ⟨_, rfl, ?_⟩
    exact ⟨rfl, rfl, rfl, .cons ha (.cons hb (.cons hold (.cons hb hst))), hls, rfl⟩
  · cases hr

/-- A handler that stays in its activation does to the cells what the instruction does to the
values. -/
theorem exec_agrees {maxLocals : ℕ} (h : f.Agrees g)
    (hshr : insn.kind = .ishr → f.shiftsNegative = false) (hdup : insn.kind = .dup2 → f.tos = .int)
    (hr : f.exec (javaDomain F) maxLocals insn x = some r) :
    ∃ r', g.exec (cellDomain F) maxLocals insn x = some r' ∧ r.1.Agrees r'.1 ∧ r.2 = r'.2 := by
  have hbody : handlerBody g.tos insn.toInstruction = handlerBody f.tos insn.toInstruction := by
    rw [h.tos]
  unfold CellFrame.exec at hr ⊢
  rw [hbody]
  split at hr
  case h_1 =>
    rw [← h.tos]
    exact compute_agrees h hshr hr
  case h_2 | h_3 | h_4 => exact compute_agrees h hshr hr
  case h_5 =>
    obtain ⟨k, hk, hr⟩ := bind_eq_some_iff.mp hr
    obtain ⟨v, hv, hr⟩ := bind_eq_some_iff.mp hr
    obtain ⟨v', hv', rfl⟩ := map_eq_some_iff.mp hr
    obtain ⟨c, hc, hlow⟩ := getElem?_agrees h hv
    obtain ⟨c', hc', hold⟩ := load_agrees hlow hv'
    refine ⟨({ g with pc := g.pc + 1, tos := k.tos, stack := c' :: g.stack }, false), ?_, ?_, rfl⟩
    · simp only [hk, hc, hc', bind_some, map_some]
    · exact { h with pc := congrArg (· + 1) h.pc, tos := rfl, stack := .cons hold h.stack }
  case h_6 =>
    split at hr
    · rename_i k v st hk hst
      obtain ⟨old, hold, hr⟩ := bind_eq_some_iff.mp hr
      obtain ⟨v', hv', rfl⟩ := map_eq_some_iff.mp hr
      obtain ⟨d, hd, -⟩ := getElem?_agrees h hold
      obtain ⟨c, cs, hv, hrest, hg⟩ := forall₂_cons_left_iff.mp (hst ▸ h.stack)
      obtain ⟨c', hc', hlow⟩ := store_agrees (d := d) hv hv'
      refine ⟨({ g with
        pc := g.pc + 1, tos := .void, stack := cs
        locals := g.locals.set (insn.localCell maxLocals) c' }, false), ?_, ?_, rfl⟩
      · simp only [hk, hg, hd, hc', bind_some, map_some]
      · exact ⟨h.method, congrArg (· + 1) h.pc, rfl, hrest, set_agrees h.locals hlow, h.entry⟩
    · cases hr
  case h_7 =>
    obtain ⟨v, hv, hr⟩ := bind_eq_some_iff.mp hr
    obtain ⟨v', hv', rfl⟩ := map_eq_some_iff.mp hr
    obtain ⟨c, hc, hlow⟩ := getElem?_agrees h hv
    obtain ⟨c', hc', hold⟩ := increment_agrees hlow hv'
    refine ⟨({ g with pc := g.pc + 1, locals := g.locals.set insn.index c' }, false), ?_, ?_, rfl⟩
    · simp only [hc, hc', bind_some, map_some]
    · exact { h with pc := congrArg (· + 1) h.pc, locals := set_agrees h.locals hold }
  case h_8 =>
    obtain ⟨r, hdupl, rfl⟩ := map_eq_some_iff.mp hr
    obtain ⟨r', hr', hagree⟩ := duplicate_agrees h (fun hf => by cases hf) hdupl
    exact ⟨(r', false), by rw [hr', map_some], hagree, rfl⟩
  case h_9 hb =>
    have hk : insn.kind = .dup2 := by
      obtain ⟨⟨kind⟩⟩ := insn
      cases kind <;> first
        | rfl
        | cases hb
    obtain ⟨r, hdupl, rfl⟩ := map_eq_some_iff.mp hr
    obtain ⟨r', hr', hagree⟩ := duplicate_agrees h (fun _ => hdup hk) hdupl
    exact ⟨(r', false), by rw [hr', map_some], hagree, rfl⟩
  case h_10 =>
    obtain ⟨st, hst, rfl⟩ := map_eq_some_iff.mp hr
    obtain ⟨cs, hcs, hrest⟩ := shuffleSlots_agrees h.stack hst
    refine ⟨({ g with pc := g.pc + 1, tos := .void, stack := cs }, false), ?_, ?_, rfl⟩
    · rw [hcs, map_some]
    · exact { h with pc := congrArg (· + 1) h.pc, tos := rfl, stack := hrest }
  case h_11 => cases hr

theorem ofCell_holdsLow (k : TypeKind) (c : Cell) : (JavaValue.ofCell k c).HoldsLow c := by
  cases k with
  | void | reference => trivial
  | boolean | char | byte | short | int | long | float | double => rfl

theorem ofCell_holds {k : TypeKind} {c : Cell} (hk : k.representable = .int → c = signExtended c.i) :
    (JavaValue.ofCell k c).Holds c := by
  cases k with
  | boolean | char | byte | short | int => exact hk rfl
  | void | reference => trivial
  | long | float | double => rfl

theorem callee_agrees (h : f.Agrees g) : f.callee insn = g.callee insn := by
  unfold CellFrame.callee
  rw [h.tos, h.stack.length_eq]

theorem resumed_agrees {v : Option JavaValue} {c : Option Cell} {n : ℕ} (h : f.Agrees g)
    (hv : Option.Rel JavaValue.Holds v c) :
    ({ f with stack := f.stack.drop n }.resumed v).Agrees
      ({ g with stack := g.stack.drop n }.resumed c) := by
  refine { h with pc := congrArg (· + 1) h.pc, tos := rfl, stack := ?_ }
  cases hv with
  | none => exact forall₂_drop n h.stack
  | some hv => exact .cons hv (forall₂_drop n h.stack)

variable {s s' : CellThread JavaValue} {t : CellThread Cell} {fs : List (CellFrame JavaValue)}

theorem current_agrees (h : s.Agrees t) (hs : s.current = some (f, fs, insn)) :
    s.throwing = false ∧ ∃ g gs, t.current = some (g, gs, insn) ∧ f.Agrees g ∧
      List.Forall₂ CellFrame.Agrees fs gs := by
  unfold CellThread.current at hs ⊢
  rw [← h.throwing, ← h.methods]
  split at hs
  · rename_i f' fs' hthrow hfs
    obtain ⟨i, hi, heq⟩ := map_eq_some_iff.mp hs
    obtain ⟨rfl, rfl, rfl⟩ : f' = f ∧ fs' = fs ∧ i = insn := by simpa using heq
    obtain ⟨g, gs, hg, hgs, ht⟩ := forall₂_cons_left_iff.mp (hfs ▸ h.frames)
    refine ⟨hthrow, g, gs, ?_, hg, hgs⟩
    rw [ht, hthrow]
    dsimp only
    rw [← hg.method, ← hg.pc, hi, map_some]
  · cases hs

theorem newFrame_agrees {callee : ℕ} {rest : List Cell} {entry : Bool}
    (h : s.Agrees t) (hargs : List.Forall₂ JavaValue.HoldsLow vs cs)
    (hf : s.newFrame (javaDomain F) callee vs rest entry = some f) :
    ∃ g, t.newFrame (cellDomain F) callee cs rest entry = some g ∧ f.Agrees g := by
  unfold CellThread.newFrame at hf ⊢
  simp only [ite_none_right_eq_some, some.injEq] at hf
  obtain ⟨hlen, rfl⟩ := hf
  rw [if_pos (by rw [← hargs.length_eq, ← h.methods]; exact hlen)]
  refine ⟨_, rfl, rfl, rfl, rfl, .nil, rel_append hargs ?_, rfl⟩
  rw [forall₂_map_left_iff, forall₂_map_right_iff, forall₂_same]
  exact fun c _ => ofCell_holdsLow .void c

theorem returned_agrees {r : Option JavaValue} (h : f.Agrees g)
    (hr : f.returned (javaDomain F) insn = some r) :
    ∃ r', g.returned (cellDomain F) insn = some r' ∧ Option.Rel JavaValue.Holds r r' := by
  unfold CellFrame.returned at hr ⊢
  split at hr
  · rename_i hk
    cases hr
    exact ⟨none, by rw [if_pos hk], .none⟩
  · rename_i hk
    rw [if_neg hk]
    split at hr
    · rename_i k v st hkind hst
      obtain ⟨v', hv', rfl⟩ := map_eq_some_iff.mp hr
      obtain ⟨c, cs, hc, -, hg⟩ := forall₂_cons_left_iff.mp (hst ▸ h.stack)
      obtain ⟨c', hc', hold⟩ := load_agrees hc.low hv'
      refine ⟨some c', ?_, .some hold⟩
      rw [hkind, hg]
      exact congrArg (Option.map some) hc'
    · cases hr

theorem leave_agrees {gs : List (CellFrame Cell)} {r : Option JavaValue} {r' : Option Cell}
    (h : s.Agrees t) (hfg : f.Agrees g) (hfs : List.Forall₂ CellFrame.Agrees fs gs)
    (hr : Option.Rel JavaValue.Holds r r') (hs : s.leave f fs r = some s') :
    ∃ t', t.leave g gs r' = some t' ∧ s'.Agrees t' := by
  unfold CellThread.leave at hs ⊢
  rw [← hfg.entry]
  split at hs
  · rename_i hentry
    cases hs
    rw [hentry]
    exact ⟨{ t with frames := gs }, rfl, h.methods, h.throwing, hfs⟩
  · rename_i hentry
    cases hs
    obtain ⟨g', gs', hg', hgs', rfl⟩ := forall₂_cons_left_iff.mp hfs
    rw [hentry]
    exact ⟨{ t with frames := g'.resumed r' :: gs' }, rfl, h.methods, h.throwing,
      .cons (resumed_agrees (n := 0) hg' hr) hgs'⟩
  · cases hs

/-- The top of the stack moves between the register and the frame. -/
theorem updateTop_agrees {move : CellFrame JavaValue → JavaValue → Option (TosKind × JavaValue)}
    {move' : CellFrame Cell → Cell → Option (TosKind × Cell)} (h : s.Agrees t)
    (hmove : ∀ f g v c tos v', f.Agrees g → v.Holds c → move f v = some (tos, v') →
      ∃ c', move' g c = some (tos, c') ∧ v'.Holds c')
    (hs : s.updateTop move = some s') : ∃ t', t.updateTop move' = some t' ∧ s'.Agrees t' := by
  unfold CellThread.updateTop at hs
  split at hs
  · rename_i f fs hfs
    obtain ⟨g, gs, hg, hgs, ht⟩ := forall₂_cons_left_iff.mp (hfs ▸ h.frames)
    split at hs
    · rename_i v st hst
      obtain ⟨c, cs, hc, hcs, hgst⟩ := forall₂_cons_left_iff.mp (hst ▸ hg.stack)
      obtain ⟨⟨tos, v'⟩, hv', rfl⟩ := map_eq_some_iff.mp hs
      obtain ⟨c', hc', hold⟩ := hmove f g v c tos v' hg hc hv'
      refine ⟨{ t with frames := { g with tos := tos, stack := c' :: cs } :: gs }, ?_, h.methods,
        h.throwing, .cons { hg with tos := rfl, stack := .cons hold hcs } hgs⟩
      simp only [CellThread.updateTop, ht, hgst, hc', map_some]
    · cases hs
  · cases hs

/-- A step on the values is a step on the cells. -/
theorem threadStep_agrees {a : ThreadEvent} (h : s.Agrees t) (hok : properValues s a = true)
    (hs : threadStep (javaDomain F) s a = some s') :
    ∃ t', threadStep (cellDomain F) t a = some t' ∧ s'.Agrees t' := by
  cases a with
  | exec x =>
    obtain ⟨⟨f, fs, insn⟩, hcur, hs⟩ := bind_eq_some_iff.mp hs
    simp only [ite_none_right_eq_some, map_eq_some_iff] at hs
    obtain ⟨hcond, r, hr, rfl⟩ := hs
    obtain ⟨-, g, gs, hg, hfg, hgs⟩ := current_agrees h hcur
    simp only [properValues, hcur, Bool.and_eq_true, Bool.not_eq_true', Bool.and_eq_false_imp,
      decide_eq_true_eq, decide_eq_false_iff_not, not_not] at hok
    obtain ⟨r', hr', hagree, hthrow⟩ := exec_agrees hfg hok.1 hok.2 hr
    refine ⟨{ t with frames := r'.1 :: gs, throwing := r'.2 }, ?_, h.methods, hthrow,
      .cons hagree hgs⟩
    simp only [threadStep, hg, bind_some]
    rw [if_pos (hfg.tos ▸ hcond), ← h.methods, ← hfg.method, hr', map_some]
  | call callee rest =>
    obtain ⟨⟨f, fs, insn⟩, hcur, hs⟩ := bind_eq_some_iff.mp hs
    obtain ⟨hthrow, g, gs, hg, hfg, hgs⟩ := current_agrees h hcur
    simp only [ite_none_right_eq_some, bind_eq_some_iff, map_eq_some_iff, Prod.exists] at hs
    obtain ⟨hk, n, k, hn, f', hf', rfl⟩ := hs
    have hargs : List.Forall₂ JavaValue.HoldsLow (f.stack.take n).reverse
        (g.stack.take n).reverse := by
      rw [forall₂_reverse_iff]
      exact (forall₂_take n hfg.stack).imp fun _ _ hv => hv.low
    have hargs' : List.Forall₂ JavaValue.HoldsLow
        (if insn.kind = .invokecallsite then (javaDomain F).external .reference 0 ::
          (f.stack.take n).reverse else (f.stack.take n).reverse)
        (if insn.kind = .invokecallsite then (cellDomain F).external .reference 0 ::
          (g.stack.take n).reverse else (g.stack.take n).reverse) := by
      split
      · exact .cons trivial hargs
      · exact hargs
    obtain ⟨g', hg', hnew⟩ := newFrame_agrees h hargs' hf'
    refine ⟨{ t with frames := g' :: { g with stack := g.stack.drop n } :: gs }, ?_, h.methods,
      h.throwing, .cons hnew (.cons ?_ hgs)⟩
    · rw [callee_agrees hfg] at hn
      simp only [threadStep, hg, bind_some, if_pos hk, hn, hg', map_some]
    · exact { hfg with stack := forall₂_drop n hfg.stack }
  | native cell =>
    obtain ⟨⟨f, fs, insn⟩, hcur, hs⟩ := bind_eq_some_iff.mp hs
    obtain ⟨-, g, gs, hg, hfg, hgs⟩ := current_agrees h hcur
    obtain ⟨⟨n, k⟩, hn, rfl⟩ := map_eq_some_iff.mp hs
    simp only [properValues, hcur, hn] at hok
    let r : Option Cell := if k = .void then none else some cell
    refine ⟨{ t with frames := { g with stack := g.stack.drop n }.resumed r :: gs }, ?_, h.methods,
      h.throwing, .cons ?_ hgs⟩
    · rw [callee_agrees hfg] at hn
      simp only [threadStep, hg, bind_some, hn, map_some]
      rfl
    · apply resumed_agrees hfg
      dsimp only [r]
      split
      · exact .none
      · exact .some (ofCell_holds fun hk => by simpa [hk] using hok)
  | aot v =>
    obtain ⟨⟨f, fs, insn⟩, hcur, hs⟩ := bind_eq_some_iff.mp hs
    obtain ⟨-, g, gs, hg, hfg, hgs⟩ := current_agrees h hcur
    obtain ⟨⟨n, k⟩, hn, hs⟩ := bind_eq_some_iff.mp hs
    simp only [ite_none_right_eq_some, some.injEq] at hs
    obtain ⟨hk, rfl⟩ := hs
    let r : Option Cell := some (Cell.setI 0 v)
    refine ⟨{ t with frames := { g with stack := g.stack.drop n }.resumed r :: gs }, ?_, h.methods,
      h.throwing, .cons ?_ hgs⟩
    · rw [callee_agrees hfg] at hn
      simp only [threadStep, hg, bind_some, hn, if_pos hk]
      rfl
    · apply resumed_agrees hfg
      have hv : v.msb = false := by simpa [properValues] using hok
      exact .some ((setI_zero v).trans (signExtended_of_msb hv).symm)
  | enter callee args rest =>
    simp only [threadStep, ite_none_left_eq_some, map_eq_some_iff] at hs
    obtain ⟨hthrow, f, hf, rfl⟩ := hs
    have hargs : List.Forall₂ JavaValue.HoldsLow
        (args.map fun a => (javaDomain F).external a.1 a.2)
        (args.map fun a => (cellDomain F).external a.1 a.2) := by
      rw [forall₂_map_left_iff, forall₂_map_right_iff, forall₂_same]
      exact fun a _ => ofCell_holdsLow a.1 a.2
    obtain ⟨g, hg, hnew⟩ := newFrame_agrees h hargs hf
    refine ⟨{ t with frames := g :: t.frames }, ?_, h.methods, h.throwing, .cons hnew h.frames⟩
    rw [h.throwing] at hthrow
    simp only [threadStep, if_neg hthrow, hg, map_some]
  | ret =>
    obtain ⟨⟨f, fs, insn⟩, hcur, hs⟩ := bind_eq_some_iff.mp hs
    obtain ⟨r, hr, hs⟩ := bind_eq_some_iff.mp hs
    obtain ⟨-, g, gs, hg, hfg, hgs⟩ := current_agrees h hcur
    obtain ⟨r', hr', hrel⟩ := returned_agrees hfg hr
    obtain ⟨t', ht', hagree⟩ := leave_agrees h hfg hgs hrel hs
    exact ⟨t', by simp only [threadStep, hg, bind_some, hr', ht'], hagree⟩
  | raise =>
    obtain ⟨⟨f, fs, insn⟩, hcur, rfl⟩ := map_eq_some_iff.mp hs
    obtain ⟨-, g, gs, hg, -, -⟩ := current_agrees h hcur
    refine ⟨{ t with throwing := true }, ?_, h.methods, rfl, h.frames⟩
    simp only [threadStep, hg, map_some]
  | caught e exception =>
    simp only [threadStep] at hs
    split at hs
    · rename_i f fs hthrow hfs
      simp only [ite_none_right_eq_some, some.injEq] at hs
      obtain ⟨hcond, rfl⟩ := hs
      obtain ⟨g, gs, hg, hgs, ht⟩ := forall₂_cons_left_iff.mp (hfs ▸ h.frames)
      refine ⟨{ t with
        throwing := false
        frames := { g with pc := e.handlerInsn, tos := .void, stack := [exception] } :: gs }, ?_,
        h.methods, rfl, .cons ?_ hgs⟩
      · rw [h.methods, hg.method, hg.pc] at hcond
        simp only [threadStep, ← h.throwing, hthrow, ht, if_pos hcond]
        rfl
      · exact { hg with pc := rfl, tos := rfl, stack := .cons trivial .nil }
    · cases hs
  | unwind swallowed =>
    simp only [threadStep] at hs
    split at hs
    · rename_i f fs hthrow hfs
      cases hs
      obtain ⟨g, gs, hg, hgs, ht⟩ := forall₂_cons_left_iff.mp (hfs ▸ h.frames)
      refine ⟨{ t with frames := gs, throwing := !(g.entry && swallowed) }, ?_, h.methods, ?_, hgs⟩
      · simp only [threadStep, ← h.throwing, hthrow, ht]
      · simp only [hg.entry]
    · cases hs
  | spill old =>
    refine updateTop_agrees h ?_ hs
    intro f g v c tos v' hfg hv hmove
    obtain ⟨v'', hv'', heq⟩ := map_eq_some_iff.mp hmove
    cases heq
    obtain ⟨c', hc', hold⟩ := spill_holds hv hv''
    exact ⟨c', by rw [← hfg.tos, hc', map_some], hold⟩
  | reload tos =>
    refine updateTop_agrees h ?_ hs
    intro f g v c tos' v' hfg hv hmove
    simp only [ite_none_right_eq_some, map_eq_some_iff, Prod.mk.injEq] at hmove
    obtain ⟨hvoid, v'', hv'', rfl, rfl⟩ := hmove
    change (if v.kind.tos = tos then some v else none) = some v'' at hv''
    simp only [ite_none_right_eq_some, some.injEq] at hv''
    obtain ⟨-, rfl⟩ := hv''
    rw [hfg.tos] at hvoid
    exact ⟨c, by rw [if_pos hvoid]; rfl, hv⟩
  | rewrite method i k =>
    simp only [threadStep, bind_eq_some_iff, ite_none_right_eq_some, some.injEq] at hs
    obtain ⟨insn, hi, hk, rfl⟩ := hs
    obtain ⟨ms, gs, b⟩ := t
    obtain ⟨rfl, rfl, hfs⟩ := h
    refine ⟨⟨_, gs, s.throwing⟩, ?_, rfl, rfl, hfs⟩
    simp only [threadStep, hi, bind_some, if_pos hk]

end Steps

def FloatUnit.unused : FloatUnit where
  float1 _ a := a
  float2 _ a _ := a
  double1 _ a := a
  double2 _ a _ := a
  floatCompare _ _ := none
  doubleCompare _ _ := none
  floatOfInt _ := 0
  doubleOfInt _ := 0
  f2i a := a
  f2l a := a.setWidth 64
  f2d a := a.setWidth 64
  d2i a := a.setWidth 32
  d2l a := a
  d2f a := a.setWidth 32
  floatToS64 a := a.setWidth 64
  doubleToS64 a := a

/-- `static long f(int n) { return n; }`. -/
def widening : MethodBody where
  code := [{ kind := .iload, originalPc := 0, delta := 1, tosAfter := .int },
    { kind := .i2l, originalPc := 1, tosBefore := .int, tosAfter := .int },
    { kind := .lreturn, originalPc := 2, tosBefore := .int }]
  maxLocals := 1
  table := []

/-- `static void f() { { long n = 1L << 32; } int i = 0; ... }`, with one cell for both variables. -/
def reusedLocal : MethodBody where
  code := [{ kind := .lconst, originalPc := 0, wideImm := 0x100000000#64, tosAfter := .int },
    { kind := .lstore, originalPc := 3, delta := 1, tosBefore := .int },
    { kind := .iconst, originalPc := 4, tosAfter := .int },
    { kind := .istore, originalPc := 5, delta := 1, tosBefore := .int },
    { kind := .returnVoid, originalPc := 6 }]
  maxLocals := 1
  table := []

end TraceJvm
