import Mathlib.Data.List.MinMax
import TraceJvm.ArrayTrees
import TraceJvm.InstanceOf

/-! `multianewarray`: where it throws, what it leaves on the operand stack, and what becomes of a
failed allocation. -/
namespace TraceJvm

open MovingHeap List

/-- `link_class`, given the exception that it raises. -/
def ArrayVm.linkClass (s : ArrayVm) : Option ℕ → ArrayVm
  | none => s
  | some e => { s with currentException := some (.other e) }

/-- `multianewarray_data`, with what `resolve_class` of the entry comes to and the exception that
`link_class` raises. -/
structure MultiArrayData where
  dimensions : ℕ
  entry : Except ℕ ClassRef
  link : Option ℕ

/-- `multianewarray` in its handler, which goes on to the next instruction if the result is 0. The
status of `link_class` is not looked at, nor is the result of `CreateArray`. What the constructor of
an exception does is left out, and no second exception may be raised. -/
def multianewarray {W : TypeWorld} (env : W.Allocator) (data : MultiArrayData) (s : ArrayVm) :
    Except Crash (ℤ × ArrayVm) :=
  match data.entry with
  | .error e => .ok (-1, { s with currentException := some (.other e) })
  | .ok r =>
    let s := s.linkClass data.link
    let sizes := (s.stack.drop (s.stack.length - data.dimensions)).map ArrayOperand.i
    match sizes.find? (· < 0) with
    | some size =>
      if s.currentException.isSome then .error .aborted
      else .ok (-1, { s with currentException := some (.negativeArraySize size) })
    | none =>
      match sizes.map fun size => size.toInt.toNat with
      | [] => .error .aborted
      | first :: rest => do
        let (result, s) ← s.createArray env rest r first
        let below := s.stack.take (s.stack.length - data.dimensions)
        return (0, { s with stack := below ++ [.reference result] })

/-! ### What the instruction is to do -/

def sizeOperands (sizes : List Int32) : List ArrayOperand := sizes.map .int

/-- What the operands and the handles refer to is as it was, moved by `f`. -/
def Preserved (W : TypeWorld) (f : ℕ → ℕ) (s s' : ArrayVm) : Prop :=
  Carried W.holdsReferences none f s.heap s.Root s'.heap s'.Root

/-- The instruction throws with the operand stack as it was, or replaces the sizes by a new tree. If
there is a negative size, it throws a `NegativeArraySizeException`, and else an `OutOfMemoryError`
where an allocation fails. -/
def MultiArrayRight {W : TypeWorld} (env : W.Allocator) (data : MultiArrayData)
    (below : List ArrayOperand) (sizes : List Int32) (s : ArrayVm) : Prop :=
  ∃ status s' f, multianewarray env data s = .ok (status, s') ∧ Preserved W f s s' ∧
    match data.entry with
    | .error e => status ≠ 0 ∧ s'.stack = s.stack.map (.relocate f) ∧
        s'.currentException = some (.other e)
    | .ok r =>
      (status ≠ 0 ∧ s'.stack = s.stack.map (.relocate f) ∧
        ((∃ size ∈ sizes, size < 0 ∧ s'.currentException = some (.negativeArraySize size)) ∨
          (∀ size ∈ sizes, ¬ size < 0) ∧ s'.currentException = some .outOfMemory ∧
            ∃ k, s.allocations ≤ k ∧ k < s'.allocations ∧ env.refuses k = true)) ∨
      (status = 0 ∧ (∀ size ∈ sizes, ¬ size < 0) ∧ s'.currentException = none ∧
        ∃ first rest a nodes, sizes.map (fun size => size.toInt.toNat) = first :: rest ∧
          s'.stack = below.map (.relocate f) ++ [.reference a] ∧
          ArrayTree s'.heap rest r first a nodes ∧ nodes.Nodup ∧
          ∀ x, Reached W.holdsReferences s.heap s.Root x → f x ∉ nodes)

/-- The class cannot be resolved; or linking it raises nothing, and there is a negative size, or the
tree can be built. -/
def MultiArrayMeets {W : TypeWorld} (env : W.Allocator) (data : MultiArrayData)
    (sizes : List Int32) (s : ArrayVm) : Prop :=
  match data.entry with
  | .error _ => True
  | .ok r => data.link = none ∧ ((∃ size ∈ sizes, size < 0) ∨
      ∃ first rest, sizes.map (fun size => size.toInt.toNat) = first :: rest ∧
        Buildable env rest r first s)

/-! ### The instruction -/

section Instruction

variable {W : TypeWorld} {env : W.Allocator} {s s' : ArrayVm} {f : ℕ → ℕ} {r : ClassRef}
  {data : MultiArrayData} {below : List ArrayOperand} {sizes : List Int32}

theorem sizeOperands_i (sizes : List Int32) : (sizeOperands sizes).map ArrayOperand.i = sizes := by
  unfold sizeOperands
  rw [map_map]
  exact map_id sizes

theorem sizes_of_stack {stack : List ArrayOperand} (hstack : stack = below ++ sizeOperands sizes)
    (hcount : data.dimensions = sizes.length) :
    (stack.drop (stack.length - data.dimensions)).map ArrayOperand.i = sizes := by
  have hlength : (sizeOperands sizes).length = data.dimensions := by
    rw [hcount]
    exact length_map _
  rw [hstack, length_append, hlength, Nat.add_sub_cancel, drop_left, sizeOperands_i]

theorem below_of_stack {stack : List ArrayOperand}
    (hstack : stack = (below ++ sizeOperands sizes).map (.relocate f))
    (hcount : data.dimensions = sizes.length) :
    stack.take (stack.length - data.dimensions) = below.map (.relocate f) := by
  have hlength : ((sizeOperands sizes).map (ArrayOperand.relocate f)).length = data.dimensions := by
    rw [hcount, length_map]
    exact length_map _
  rw [hstack, map_append, length_append, hlength, Nat.add_sub_cancel, take_left]

theorem reference_notMem_sizes (sizes : List Int32) {p : ℕ} :
    .reference p ∉ (sizeOperands sizes).map (ArrayOperand.relocate f) := by
  unfold sizeOperands
  rw [map_map]
  intro hmem
  obtain ⟨size, -, heq⟩ := mem_map.mp hmem
  cases heq

@[simp] theorem linkClass_stack (s : ArrayVm) (link : Option ℕ) :
    (s.linkClass link).stack = s.stack := by
  cases link with
  | none => rfl
  | some e => rfl

theorem multianewarray_negative {size : Int32} (hentry : data.entry = .ok r)
    (hstack : s.stack = below ++ sizeOperands sizes) (hcount : data.dimensions = sizes.length)
    (hfind : sizes.find? (· < 0) = some size) :
    multianewarray env data s =
      if (s.linkClass data.link).currentException.isSome then .error .aborted
      else .ok (-1, { s.linkClass data.link with
        currentException := some (.negativeArraySize size) }) := by
  unfold multianewarray
  rw [hentry]
  dsimp only
  rw [linkClass_stack, sizes_of_stack hstack hcount, hfind]

theorem multianewarray_create (hentry : data.entry = .ok r)
    (hstack : s.stack = below ++ sizeOperands sizes) (hcount : data.dimensions = sizes.length)
    (hfind : sizes.find? (· < 0) = none) :
    multianewarray env data s =
      match sizes.map fun size => size.toInt.toNat with
      | [] => .error .aborted
      | first :: rest => do
        let (result, s) ← (s.linkClass data.link).createArray env rest r first
        let below := s.stack.take (s.stack.length - data.dimensions)
        return (0, { s with stack := below ++ [.reference result] }) := by
  unfold multianewarray
  rw [hentry]
  dsimp only
  rw [linkClass_stack, sizes_of_stack hstack hcount, hfind]

theorem relocate_operands_id (stack : List ArrayOperand) : stack.map (.relocate id) = stack := by
  rw [ArrayOperand.relocate_id, map_id]

theorem preserved_of_same (hheap : s'.heap = s.heap) (hstack : s'.stack = s.stack)
    (hhandles : s'.handles = s.handles) : Preserved W id s s' := by
  unfold Preserved ArrayVm.Root
  rw [hheap, hstack, hhandles]
  exact Carried.refl fun _ ha => ha

/-- The tree takes the place of the sizes. -/
theorem multianewarray_built {first : ℕ} {rest : List ℕ} (hentry : data.entry = .ok r)
    (hlink : data.link = none) (hstack : s.stack = below ++ sizeOperands sizes)
    (hcount : data.dimensions = sizes.length) (hdims : sizes.length ≤ r.dims)
    (hfind : sizes.find? (· < 0) = none)
    (hsizes : sizes.map (fun size => size.toInt.toNat) = first :: rest)
    (hready : Buildable env rest r first s) :
    ∃ s' f a nodes, multianewarray env data s = .ok (0, s') ∧ Preserved W f s s' ∧
      s'.currentException = s.currentException ∧
      s'.stack = below.map (.relocate f) ++ [.reference a] ∧
      ArrayTree s'.heap rest r first a nodes ∧ nodes.Nodup ∧
      ∀ x, Reached W.holdsReferences s.heap s.Root x → f x ∉ nodes := by
  have hlength : rest.length + 1 = sizes.length := by
    rw [← length_cons, ← hsizes, length_map]
  obtain ⟨a, t, f, nodes, hcall, hbuilt, htree, hnodup, hfresh⟩ :=
    createArray_spec hready (by omega)
  have hbelow := below_of_stack (hstack ▸ hbuilt.stack) hcount
  refine ⟨{ t with stack := below.map (.relocate f) ++ [.reference a] }, f, a, nodes, ?_, ?_,
    hbuilt.exception, rfl, htree, hnodup, hfresh⟩
  · rw [multianewarray_create hentry hstack hcount hfind, hsizes, hlink]
    show s.createArray env rest r first >>= _ = _
    rw [hcall, Outcome.ok_bind]
    dsimp only
    rw [hbelow]
    rfl
  · apply hbuilt.carried.forget (fun _ hx => hx) _ (fun x _ => nofun)
    intro x hx
    have hmoved := root_map hbuilt.stack hbuilt.handles hbuilt.carried.null
      hbuilt.carried.injective hx
    refine ⟨hmoved.1, hmoved.2.imp_left ?_⟩
    intro hmem
    rw [hbuilt.stack, hstack, map_append, mem_append] at hmem
    exact mem_append_left _ (hmem.resolve_right (reference_notMem_sizes sizes))

theorem multianewarray_thrown {size : Int32} (hentry : data.entry = .ok r)
    (hlink : data.link = none) (hstack : s.stack = below ++ sizeOperands sizes)
    (hcount : data.dimensions = sizes.length) (hcalm : s.currentException = none)
    (hfind : sizes.find? (· < 0) = some size) :
    multianewarray env data s =
      .ok (-1, { s with currentException := some (.negativeArraySize size) }) := by
  rw [multianewarray_negative hentry hstack hcount hfind, hlink]
  show (if s.currentException.isSome = true then _ else _) = _
  rw [hcalm, if_neg (by decide)]
  rfl

/-- If the instruction goes on without an exception, there was none before, and the tree could be
built. -/
theorem multianewarray_calm (hentry : data.entry = .ok r)
    (hstack : s.stack = below ++ sizeOperands sizes) (hcount : data.dimensions = sizes.length)
    (hdims : sizes.length ≤ r.dims) (hfind : sizes.find? (· < 0) = none) {status : ℤ}
    (h : multianewarray env data s = .ok (status, s')) :
    status = 0 ∧ (s'.currentException = none → data.link = none ∧
      ∃ first rest, sizes.map (fun size => size.toInt.toNat) = first :: rest ∧
        Buildable env rest r first s) := by
  rw [multianewarray_create hentry hstack hcount hfind] at h
  split at h
  · cases h
  rename_i first rest hsizes
  have hlength : rest.length + 1 = sizes.length := by
    rw [← length_cons, ← hsizes, length_map]
  obtain ⟨⟨a, t⟩, hcall, hrest⟩ := Outcome.bind_eq_ok.mp h
  cases hrest
  refine ⟨rfl, ?_⟩
  intro hend
  obtain ⟨hcalm, hready⟩ := createArray_calm hcall hend (by omega)
  cases hlink : data.link with
  | none =>
    rw [hlink] at hready
    exact ⟨rfl, first, rest, hsizes, hready⟩
  | some e =>
    rw [hlink] at hcalm
    cases hcalm

/-- The instruction does what it is to do exactly where nothing fails after the resolution, save for
the check of the sizes. -/
theorem multianewarray_right_iff (hstack : s.stack = below ++ sizeOperands sizes)
    (hcount : data.dimensions = sizes.length)
    (hdims : ∀ r, data.entry = .ok r → sizes.length ≤ r.dims) (hcalm : s.currentException = none) :
    MultiArrayRight env data below sizes s ↔ MultiArrayMeets env data sizes s := by
  unfold MultiArrayRight MultiArrayMeets
  cases hentry : data.entry with
  | error e =>
    apply iff_of_true _ trivial
    refine ⟨-1, { s with currentException := some (.other e) }, id, ?_,
      preserved_of_same rfl rfl rfl, by decide, (relocate_operands_id _).symm, rfl⟩
    unfold multianewarray
    rw [hentry]
  | ok r =>
    have hlower := hdims r hentry
    dsimp only
    cases hfind : sizes.find? (· < 0) with
    | some size =>
      have hneg : size < 0 := by simpa using find?_some hfind
      have hmem := mem_of_find?_eq_some hfind
      constructor
      · intro ⟨status, s', f, hcall, _⟩
        refine ⟨?_, .inl ⟨size, hmem, hneg⟩⟩
        rw [multianewarray_negative hentry hstack hcount hfind] at hcall
        cases hlink : data.link with
        | none => rfl
        | some e =>
          rw [hlink] at hcall
          cases hcall
      · intro ⟨hlink, _⟩
        exact ⟨-1, _, id, multianewarray_thrown hentry hlink hstack hcount hcalm hfind,
          preserved_of_same rfl rfl rfl,
          .inl ⟨by decide, (relocate_operands_id _).symm, .inl ⟨size, hmem, hneg, rfl⟩⟩⟩
    | none =>
      have hnonneg : ∀ size ∈ sizes, ¬ size < 0 := by
        intro size hmem hneg
        exact find?_eq_none.mp hfind size hmem (decide_eq_true hneg)
      constructor
      · intro ⟨status, s', f, hcall, _, hend⟩
        obtain ⟨rfl, hready⟩ := multianewarray_calm hentry hstack hcount hlower hfind hcall
        rcases hend with ⟨hstatus, -⟩ | ⟨-, -, hend, -⟩
        · exact absurd rfl hstatus
        · exact ⟨(hready hend).1, .inr (hready hend).2⟩
      · intro ⟨hlink, hmeets⟩
        rcases hmeets with ⟨size, hmem, hneg⟩ | ⟨first, rest, hsizes, hready⟩
        · exact absurd hneg (hnonneg size hmem)
        obtain ⟨s', f, a, nodes, hcall, hpreserved, hexception, htop, htree, hnodup, hfresh⟩ :=
          multianewarray_built hentry hlink hstack hcount hlower hfind hsizes hready
        exact ⟨0, s', f, hcall, hpreserved, .inr ⟨rfl, hnonneg, hexception.trans hcalm, first, rest,
          a, nodes, hsizes, htop, htree, hnodup, hfresh⟩⟩

end Instruction

/-- A heap with room for `n` arrays, each of which is put behind the others. -/
def roomFor (n : ℕ) : TypeWorld.bootTypes.Allocator where
  refuses k := decide (n ≤ k)
  motion _ := ⟨id, fun _ => true, rfl, Function.injective_id⟩
  place s := (s.heap.map Prod.fst).foldr max 0 + 8
  keeps _ _ _ := rfl
  free s := by
    refine ⟨Nat.succ_ne_zero _, OrderedMap.get_eq_none.mpr ?_⟩
    intro p hp
    obtain ⟨q, hq, rfl⟩ := mem_map.mp hp
    have hmem := mem_map_of_mem (f := Prod.fst) (mem_of_mem_filter hq)
    have hle : q.1 ≤ (s.heap.map Prod.fst).foldr max 0 := le_max_of_le hmem le_rfl
    show q.1 ≠ (s.heap.map Prod.fst).foldr max 0 + 8
    omega

/-- `int[][]` of two sizes. -/
def intMatrix : MultiArrayData := ⟨2, .ok ⟨4, 2⟩, none⟩

def matrixVm : ArrayVm := ⟨[], sizeOperands [2, 3], [none], 0, none⟩

theorem multianewarray_right_iff_intMatrix :
    MultiArrayRight (roomFor 3) intMatrix [] [2, 3] matrixVm := by
  apply (multianewarray_right_iff rfl rfl _ rfl).mpr
  · have hready : Buildable (roomFor 3) [3] ⟨4, 2⟩ 2 matrixVm := by
      constructor
      · decide
      · decide
      · exact ⟨by decide, fun _ => by show TypeWorld.Allocator.Fits _ _ _; decide⟩
    exact ⟨rfl, .inr ⟨2, [3], by decide, hready⟩⟩
  · intro r hr
    cases hr
    decide

/-- Without memory for the second row the matrix is null and an exception is pending. -/
theorem intMatrix_outOfMemory : ¬ MultiArrayRight (roomFor 2) intMatrix [] [2, 3] matrixVm := by
  intro ⟨status, s', f, hcall, _, hend⟩
  have hresult : multianewarray (roomFor 2) intMatrix matrixVm = .ok (0,
      ⟨[(8, ⟨⟨4, 2⟩, [16, 0]⟩), (16, ⟨⟨4, 1⟩, [0, 0, 0]⟩)], [.reference 0], [none], 3,
        some .outOfMemory⟩) := by
    decide
  cases hcall.symm.trans hresult
  rcases hend with ⟨hstatus, -⟩ | ⟨-, -, hcalm, -⟩
  · exact absurd rfl hstatus
  · cases hcalm

end TraceJvm
