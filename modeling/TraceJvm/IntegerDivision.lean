import TraceJvm.IntCells

/-! The handlers of `idiv`, `irem`, `ldiv` and `lrem`. The helpers that they call guard against the
one quotient that does not fit with `INT_MIN` and `LONG_MIN`, and C `long` has 32 bits on wasm32. -/
namespace TraceJvm

inductive Target where
  | wasm32
  | x64
  deriving DecidableEq

/-- `LONG_MIN`, converted to `s64` for the comparison with an operand. -/
def Target.longMin : Target → BitVec 64
  | .wasm32 => signExtended (BitVec.intMin 32)
  | .x64 => BitVec.intMin 64

/-- The division instruction of the target; `none` is a trap. -/
def divS {w : ℕ} (a b : BitVec w) : Option (BitVec w) :=
  if b = 0 ∨ (a = BitVec.intMin w ∧ b = -1) then none else some (a.sdiv b)

/-- The remainder instruction of the target. `rem_s` of WebAssembly is 0 where the quotient does
not fit, the division instruction of x86-64 traps there as well. -/
def Target.remS (t : Target) {w : ℕ} (a b : BitVec w) : Option (BitVec w) :=
  if b = 0 ∨ (t = .x64 ∧ a = BitVec.intMin w ∧ b = -1) then none else some (a.srem b)

def javaIdiv (a b : BitVec 32) : Option (BitVec 32) :=
  if a = BitVec.intMin 32 ∧ b = -1 then some (BitVec.intMin 32) else divS a b

def javaIrem (t : Target) (a b : BitVec 32) : Option (BitVec 64) :=
  if a = BitVec.intMin 32 ∧ b = -1 then some 0 else (t.remS a b).map signExtended

def javaLdiv (t : Target) (a b : BitVec 64) : Option (BitVec 64) :=
  if a = t.longMin ∧ b = -1 then some t.longMin else divS a b

def javaLrem (t : Target) (a b : BitVec 64) : Option (BitVec 64) :=
  if a = t.longMin ∧ b = -1 then some 0 else t.remS a b

inductive HandlerExit where
  | next (f : CellFrame Cell)
  | raised (exception message : String) (f : CellFrame Cell)
  | trap

/-- `raise_div0_arithmetic_exception`, after a spill. -/
def CellFrame.raiseDiv0 (f : CellFrame Cell) : HandlerExit :=
  .raised "java/lang/ArithmeticException" "/ by zero" f

/-- `NEXT_INT`, with `st` below the result; the computation of the result can trap. -/
def CellFrame.nextInt (f : CellFrame Cell) (st : List Cell) : Option Cell → HandlerExit
  | some c => .next { f with pc := f.pc + 1, tos := .int, stack := c :: st }
  | none => .trap

/-- `idiv_impl_int`. The second operand is in the register, the first one below it. -/
def idivImplInt (f : CellFrame Cell) (a b : Cell) (st : List Cell) : HandlerExit :=
  if b.i = 0 then f.raiseDiv0 else f.nextInt st ((javaIdiv a.i b.i).map signExtended)

def iremImplInt (t : Target) (f : CellFrame Cell) (a b : Cell) (st : List Cell) : HandlerExit :=
  if b.i = 0 then f.raiseDiv0 else f.nextInt st (javaIrem t a.i b.i)

def ldivImplInt (t : Target) (f : CellFrame Cell) (a b : Cell) (st : List Cell) : HandlerExit :=
  if b = 0 then f.raiseDiv0 else f.nextInt st (javaLdiv t a b)

def lremImplInt (t : Target) (f : CellFrame Cell) (a b : Cell) (st : List Cell) : HandlerExit :=
  if b = 0 then f.raiseDiv0 else f.nextInt st (javaLrem t a b)

def divisionHandler (t : Target) (k : InsnKind) (f : CellFrame Cell) : Option HandlerExit :=
  match f.stack, k with
  | b :: a :: st, .idiv => some (idivImplInt f a b st)
  | b :: a :: st, .irem => some (iremImplInt t f a b st)
  | b :: a :: st, .ldiv => some (ldivImplInt t f a b st)
  | b :: a :: st, .lrem => some (lremImplInt t f a b st)
  | _, _ => none

def javaQuotient {w : ℕ} (a b : BitVec w) : BitVec w := BitVec.ofInt w (a.toInt.tdiv b.toInt)

def javaRemainder {w : ℕ} (a b : BitVec w) : BitVec w := BitVec.ofInt w (a.toInt.tmod b.toInt)

theorem sdiv_eq_javaQuotient {w : ℕ} (a b : BitVec w) : a.sdiv b = javaQuotient a b := by
  apply BitVec.eq_of_toInt_eq
  rw [BitVec.toInt_sdiv, javaQuotient, BitVec.toInt_ofInt]

theorem srem_eq_javaRemainder {w : ℕ} (a b : BitVec w) : a.srem b = javaRemainder a b := by
  rw [javaRemainder, ← BitVec.toInt_srem, BitVec.ofInt_toInt]

theorem javaQuotient_mul_add {w : ℕ} (a b : BitVec w) :
    javaQuotient a b * b + javaRemainder a b = a := by
  have hb : b = BitVec.ofInt w b.toInt := BitVec.ofInt_toInt.symm
  calc javaQuotient a b * b + javaRemainder a b
      = BitVec.ofInt w (a.toInt.tdiv b.toInt * b.toInt + a.toInt.tmod b.toInt) := by
        rw [BitVec.ofInt_add, BitVec.ofInt_mul, ← hb]
        rfl
    _ = BitVec.ofInt w a.toInt := by rw [Int.tdiv_mul_add_tmod]
    _ = a := BitVec.ofInt_toInt

section Helpers

variable {w : ℕ}

theorem divS_eq (a : BitVec w) {b : BitVec w} (hb : b ≠ 0) :
    divS a b = if a = BitVec.intMin w ∧ b = -1 then none else some (javaQuotient a b) := by
  unfold divS
  rw [sdiv_eq_javaQuotient]
  by_cases h : a = BitVec.intMin w ∧ b = -1
  · rw [if_pos (Or.inr h), if_pos h]
  · rw [if_neg (not_or.mpr ⟨hb, h⟩), if_neg h]

theorem remS_wasm32 (a : BitVec w) {b : BitVec w} (hb : b ≠ 0) :
    Target.wasm32.remS a b = some (javaRemainder a b) := by
  unfold Target.remS
  rw [srem_eq_javaRemainder]
  apply if_neg
  rintro (h | ⟨h, -⟩)
  · exact hb h
  · cases h

end Helpers

theorem javaIdiv_eq (a : BitVec 32) {b : BitVec 32} (hb : b ≠ 0) :
    javaIdiv a b = some (javaQuotient a b) := by
  unfold javaIdiv
  by_cases h : a = BitVec.intMin 32 ∧ b = -1
  · rw [if_pos h, h.1, h.2]
    decide
  · rw [if_neg h, divS_eq a hb, if_neg h]

theorem javaIrem_wasm32 (a : BitVec 32) {b : BitVec 32} (hb : b ≠ 0) :
    javaIrem .wasm32 a b = some (signExtended (javaRemainder a b)) := by
  unfold javaIrem
  by_cases h : a = BitVec.intMin 32 ∧ b = -1
  · rw [if_pos h, h.1, h.2]
    decide
  · rw [if_neg h, remS_wasm32 a hb]
    rfl

/-- The two dividends whose quotient by -1 goes wrong on wasm32: the one that the guard takes for
the least `long`, and the least `long`. -/
def overflows (a b : BitVec 64) : Prop :=
  b = -1 ∧ (a = Target.wasm32.longMin ∨ a = BitVec.intMin 64)

variable {b : BitVec 64}

theorem javaLdiv_wasm32 {a : BitVec 64} (hb : b ≠ 0) :
    javaLdiv .wasm32 a b = some (javaQuotient a b) ↔ ¬ overflows a b := by
  unfold javaLdiv overflows
  by_cases hguard : a = Target.wasm32.longMin ∧ b = -1
  · rw [if_pos hguard]
    have hwrong : ¬ some Target.wasm32.longMin =
        some (javaQuotient Target.wasm32.longMin (-1)) := by decide
    rw [hguard.1, hguard.2]
    exact iff_of_false hwrong (not_not.mpr ⟨rfl, Or.inl rfl⟩)
  · rw [if_neg hguard, divS_eq a hb]
    by_cases hmin : a = BitVec.intMin 64 ∧ b = -1
    · rw [if_pos hmin]
      apply iff_of_false
      · intro h
        cases h
      · exact not_not.mpr ⟨hmin.2, Or.inr hmin.1⟩
    · rw [if_neg hmin]
      apply iff_of_true rfl
      rintro ⟨hb1, ha | ha⟩
      · exact hguard ⟨ha, hb1⟩
      · exact hmin ⟨ha, hb1⟩

theorem javaLrem_wasm32 (a : BitVec 64) (hb : b ≠ 0) :
    javaLrem .wasm32 a b = some (javaRemainder a b) := by
  unfold javaLrem
  by_cases h : a = Target.wasm32.longMin ∧ b = -1
  · rw [if_pos h, h.1, h.2]
    decide
  · rw [if_neg h, remS_wasm32 a hb]

theorem javaLdiv_x64 (a : BitVec 64) (hb : b ≠ 0) :
    javaLdiv .x64 a b = some (javaQuotient a b) := by
  unfold javaLdiv
  by_cases h : a = Target.x64.longMin ∧ b = -1
  · rw [if_pos h, h.1, h.2]
    decide
  · have hmin : ¬ (a = BitVec.intMin 64 ∧ b = -1) := h
    rw [if_neg h, divS_eq a hb, if_neg hmin]

theorem remS_x64 {w : ℕ} {a b : BitVec w} (hb : b ≠ 0) (h : ¬ (a = BitVec.intMin w ∧ b = -1)) :
    Target.x64.remS a b = some (a.srem b) :=
  if_neg (not_or.mpr ⟨hb, fun hmin => h hmin.2⟩)

theorem javaLrem_x64 (a : BitVec 64) (hb : b ≠ 0) :
    javaLrem .x64 a b = some (javaRemainder a b) := by
  unfold javaLrem
  by_cases h : a = Target.x64.longMin ∧ b = -1
  · rw [if_pos h, h.1, h.2]
    decide
  · rw [if_neg h, remS_x64 hb h, srem_eq_javaRemainder]

theorem javaIrem_x64 (a : BitVec 32) {b : BitVec 32} (hb : b ≠ 0) :
    javaIrem .x64 a b = some (signExtended (javaRemainder a b)) := by
  unfold javaIrem
  by_cases h : a = BitVec.intMin 32 ∧ b = -1
  · rw [if_pos h, h.1, h.2]
    decide
  · rw [if_neg h, remS_x64 hb h, srem_eq_javaRemainder]
    rfl

/-- A frame about to divide `a` by `b`. -/
def CellFrame.dividing (f : CellFrame Cell) (st : List Cell) (a b : Cell) : CellFrame Cell :=
  { f with tos := .int, stack := b :: a :: st }

/-- A frame after an instruction with the result `c`. -/
def CellFrame.resulting (f : CellFrame Cell) (st : List Cell) (c : Cell) : CellFrame Cell :=
  { f with pc := f.pc + 1, tos := .int, stack := c :: st }

/-- The division and the remainder of one pair of operands as Java has them. `read` and `cell`
convert between the values of the operand type and their cells. -/
structure DividesRight {w : ℕ} (read : Cell → BitVec w) (cell : BitVec w → Cell)
    (f : CellFrame Cell) (st : List Cell) (a b : BitVec w) (quotient remainder : HandlerExit) :
    Prop where
  divided : b ≠ 0 → ∃ q r,
    quotient = .next (f.resulting st q) ∧ q = cell (javaQuotient a b) ∧
    remainder = .next (f.resulting st r) ∧ r = cell (javaRemainder a b) ∧
    read q * b + read r = a
  zero : b = 0 → quotient = .raised "java/lang/ArithmeticException" "/ by zero" f ∧
    remainder = .raised "java/lang/ArithmeticException" "/ by zero" f

variable {f : CellFrame Cell}

variable {q : Option Cell} {st : List Cell}

theorem dividesRight_of_eq {w : ℕ} {read : Cell → BitVec w} {cell : BitVec w → Cell}
    {a b : BitVec w} {r : Option Cell}
    (hread : ∀ v, read (cell v) = v) (hq : b ≠ 0 → q = some (cell (javaQuotient a b)))
    (hr : b ≠ 0 → r = some (cell (javaRemainder a b))) :
    DividesRight read cell f st a b (if b = 0 then f.raiseDiv0 else f.nextInt st q)
      (if b = 0 then f.raiseDiv0 else f.nextInt st r) where
  divided hb := by
    rw [if_neg hb, if_neg hb, hq hb, hr hb]
    have hsum : read (cell (javaQuotient a b)) * b + read (cell (javaRemainder a b)) = a := by
      rw [hread, hread, javaQuotient_mul_add]
    exact ⟨_, _, rfl, rfl, rfl, rfl, hsum⟩
  zero hb := by
    rw [if_pos hb, if_pos hb]
    exact ⟨rfl, rfl⟩

theorem CellFrame.nextInt_injective
    {c : Cell} (h : f.nextInt st q = .next (f.resulting st c)) : q = some c := by
  cases q with
  | none => cases h
  | some c' =>
    cases h
    rfl

/-- On wasm32 `idiv` and `irem` are right for all operands, and `ldiv` and `lrem` for all but two
pairs of operands. -/
theorem division_right_iff (f : CellFrame Cell) (st : List Cell) (a b : Cell) :
    DividesRight Cell.i signExtended (f.dividing st a b) st a.i b.i
      (idivImplInt (f.dividing st a b) a b st) (iremImplInt .wasm32 (f.dividing st a b) a b st) ∧
    (DividesRight id id (f.dividing st a b) st a b
        (ldivImplInt .wasm32 (f.dividing st a b) a b st)
        (lremImplInt .wasm32 (f.dividing st a b) a b st) ↔
      ¬ overflows a b) := by
  constructor
  · apply dividesRight_of_eq
    · intro v
      exact signExtended_i v
    · intro hb
      rw [javaIdiv_eq a.i hb]
      rfl
    · intro hb
      exact javaIrem_wasm32 a.i hb
  · constructor
    · intro h hover
      have hb : b ≠ 0 := by
        rw [hover.1]
        decide
      obtain ⟨q, r, hq, rfl, -⟩ := h.divided hb
      unfold ldivImplInt at hq
      rw [if_neg hb] at hq
      exact (javaLdiv_wasm32 hb).mp (CellFrame.nextInt_injective hq) hover
    · intro h
      apply dividesRight_of_eq
      · intro v
        rfl
      · intro hb
        exact (javaLdiv_wasm32 hb).mpr h
      · intro hb
        exact javaLrem_wasm32 a hb

def idleFrame : CellFrame Cell where
  method := 0
  pc := 0
  tos := .int
  stack := []
  locals := []
  entry := true

/-- `Long.MIN_VALUE / -1` traps, and `-2147483648L / -1` is left on the stack as itself. -/
theorem ldiv_overflow_wrong :
    ldivImplInt .wasm32 (idleFrame.dividing [] (BitVec.intMin 64) (-1)) (BitVec.intMin 64) (-1) [] =
      .trap ∧
    ldivImplInt .wasm32 (idleFrame.dividing [] (-0x80000000#64) (-1)) (-0x80000000#64) (-1) [] =
      .next (idleFrame.resulting [] (-0x80000000#64)) ∧
    ¬ ∀ (f : CellFrame Cell) (st : List Cell) (a b : Cell),
      DividesRight id id (f.dividing st a b) st a b
        (ldivImplInt .wasm32 (f.dividing st a b) a b st)
        (lremImplInt .wasm32 (f.dividing st a b) a b st) := by
  have htrap : ldivImplInt .wasm32 (idleFrame.dividing [] (BitVec.intMin 64) (-1))
      (BitVec.intMin 64) (-1) [] = .trap := rfl
  refine ⟨htrap, rfl, ?_⟩
  intro h
  have hb : (-1 : Cell) ≠ 0 := by decide
  obtain ⟨q, r, hq, -⟩ := (h idleFrame [] (BitVec.intMin 64) (-1)).divided hb
  rw [htrap] at hq
  cases hq

variable {insn : ConcreteInsn}

theorem nextInt_guarded {D : ValueDomain Cell}
    {x : External} {a b c : Cell} {zero : Prop} [Decidable zero] (hst : f.stack = b :: a :: st)
    (hD : D.compute insn x [b, a] = some (if zero then .throw else .push c))
    (hq : ¬ zero → q = some c) : some (if zero then f.raiseDiv0 else f.nextInt st q) =
      (f.compute D insn x 2 .int).map fun r => if r.2 then r.1.raiseDiv0 else .next r.1 := by
  have hlen : 2 ≤ f.stack.length := by
    rw [hst]
    simp
  have htake : f.stack.take 2 = [b, a] := by rw [hst]; rfl
  have hdrop : f.stack.drop 2 = st := by rw [hst]; rfl
  unfold CellFrame.compute
  rw [if_pos hlen, htake, hdrop, hD]
  by_cases hzero : zero
  · rw [if_pos hzero, if_pos hzero]
    rfl
  · rw [if_neg hzero, if_neg hzero, hq hzero]
    rfl

/-- On the host the four handlers are the ones of the cell machine. -/
theorem divisionHandler_x64 {F : FloatUnit} {x : External} {a b : Cell} (hst : f.stack = b :: a :: st)
    (hk : insn.kind ∈ [InsnKind.idiv, .irem, .ldiv, .lrem]) : divisionHandler .x64 insn.kind f =
      (f.compute (cellDomain F) insn x 2 .int).map fun r =>
        if r.2 then r.1.raiseDiv0 else .next r.1 := by
  have hcompute : (cellDomain F).compute insn x [b, a] =
      if insn.kind = .multianewarray then _ else cellBinary F insn x b a := rfl
  simp only [List.mem_cons, List.not_mem_nil, or_false] at hk
  unfold divisionHandler
  rw [hst]
  unfold cellBinary at hcompute
  rcases hk with hk | hk | hk | hk
  · simp only [hk, reduceCtorEq, if_false] at hcompute ⊢
    apply nextInt_guarded hst hcompute
    intro hb
    rw [javaIdiv_eq a.i hb, sdiv_eq_javaQuotient]
    rfl
  · simp only [hk, reduceCtorEq, if_false] at hcompute ⊢
    apply nextInt_guarded hst hcompute
    intro hb
    rw [javaIrem_x64 a.i hb, srem_eq_javaRemainder]
  · simp only [hk, reduceCtorEq, if_false] at hcompute ⊢
    apply nextInt_guarded hst hcompute
    intro hb
    rw [javaLdiv_x64 a hb, sdiv_eq_javaQuotient]
  · simp only [hk, reduceCtorEq, if_false] at hcompute ⊢
    apply nextInt_guarded hst hcompute
    intro hb
    rw [javaLrem_x64 a hb, srem_eq_javaRemainder]

theorem divisionHandler_x64_idle : divisionHandler .x64 .idiv (idleFrame.dividing [] 7 2) =
    ((idleFrame.dividing [] 7 2).compute (cellDomain .unused) { kind := .idiv, originalPc := 0 }
      ⟨0, 0, false⟩ 2 .int).map fun r => if r.2 then r.1.raiseDiv0 else .next r.1 :=
  @divisionHandler_x64 _ _ { kind := .idiv, originalPc := 0 } _ _ _ _ rfl (.head _)

end TraceJvm
