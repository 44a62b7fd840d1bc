import TraceJvm.Lib.Bisection
import TraceJvm.Lib.HoareSort
import TraceJvm.CollectorSlide

/-! The order in which `major_gc` moves the cells: `quicksort_pointers`, the loop that slides the
cells down, and `binary_search_for_pointer`. -/
namespace TraceJvm

open List Placement

def quicksortPointers (ptrs : List ℕ) : Option (List ℕ) :=
  HoareSort.quicksort (ptrs.length + 1) ptrs

/-- The comparisons of `binary_search_for_pointer`, which reads only within the array. -/
def pointerVerdict (ptr : ℕ) (ptrs : List ℕ) (mid : ℕ) : Ordering :=
  match ptrs[mid]? with
  | none => .gt
  | some p => if p = ptr then .eq else if p < ptr then .lt else .gt

def binarySearchForPointer (ptr : ℕ) (ptrs : List ℕ) : Option ℕ :=
  Bisection.bisect (pointerVerdict ptr ptrs) 0 ptrs.length

/-- The arguments of a `memmove`. -/
structure CellCopy where
  writePtr : ℕ
  source : ℕ
  size : ℕ

/-- The copies of the sliding loop, where `size` is `sizeof(monitor_data)` for a tagged pointer and
`size_of_object` for others. -/
def slideCells (size : ℕ → ℕ) : ℕ → List ℕ → List CellCopy
  | _, [] => []
  | writePtr, obj :: objs =>
    let writePtr := alignUp writePtr 8
    let sz := alignUp (size obj) 8
    ⟨writePtr, cellAddress obj, sz⟩ :: slideCells size (writePtr + sz) objs

/-- The pointers of `objs` name disjoint cells at multiples of 8. -/
structure LiveCells (size : ℕ → ℕ) (heap : ℕ) (objs : List ℕ) : Prop where
  start : 8 ∣ heap
  above : ∀ t ∈ objs, heap ≤ cellAddress t
  aligned : ∀ t ∈ objs, 8 ∣ cellAddress t
  nonempty : ∀ t ∈ objs, 0 < size t
  disjoint : ∀ t ∈ objs, ∀ u ∈ objs, t ≠ u →
    cellAddress t + size t ≤ cellAddress u ∨ cellAddress u + size u ≤ cellAddress t

variable {size : ℕ → ℕ} {writePtr ptr i : ℕ} {objs ptrs : List ℕ}

theorem LiveCells.mono {heap : ℕ} (h : LiveCells size heap objs) (hsub : ptrs ⊆ objs) :
    LiveCells size heap ptrs :=
  ⟨h.start, fun t ht => h.above t (hsub ht), fun t ht => h.aligned t (hsub ht),
    fun t ht => h.nonempty t (hsub ht), fun t ht u hu => h.disjoint t (hsub ht) u (hsub hu)⟩

/-- A cell ends, with its padding, before the next one in the order of the pointers. -/
theorem LiveCells.behind {heap t u : ℕ} (h : LiveCells size heap objs) (ht : t ∈ objs)
    (hu : u ∈ objs) (hlt : t < u) : cellAddress t + alignUp (size t) 8 ≤ cellAddress u := by
  have hbehind : cellAddress t + size t ≤ cellAddress u := by
    have hsize := h.nonempty u hu
    refine (h.disjoint t ht u hu hlt.ne).resolve_right fun hle => ?_
    unfold cellAddress at hle
    omega
  obtain ⟨a, ha⟩ := h.aligned t ht
  obtain ⟨b, hb⟩ := h.aligned u hu
  unfold alignUp
  omega

theorem slideCells_spec {heap : ℕ} (h : LiveCells size heap objs) (hsorted : objs.Pairwise (· < ·))
    (haligned : 8 ∣ writePtr) (hroom : ∀ t ∈ objs, writePtr ≤ cellAddress t) :
    (∀ c ∈ slideCells size writePtr objs, c.writePtr ≤ c.source ∧ ∃ t ∈ objs,
      c.source = cellAddress t) ∧
    (slideCells size writePtr objs).Pairwise fun c d => c.writePtr + c.size ≤ d.source := by
  induction objs generalizing writePtr with
  | nil => exact ⟨nofun, .nil⟩
  | cons t objs ih =>
    obtain ⟨hlt, hsorted⟩ := pairwise_cons.mp hsorted
    have hhere := hroom t mem_cons_self
    have hnext : ∀ u ∈ objs, writePtr + alignUp (size t) 8 ≤ cellAddress u := by
      intro u hu
      have hbehind := h.behind mem_cons_self (mem_cons_of_mem _ hu) (hlt u hu)
      omega
    obtain ⟨hdown, hapart⟩ := ih (h.mono (subset_cons_self t objs)) hsorted
      (Nat.dvd_add haligned (dvd_alignUp _ _)) hnext
    simp only [slideCells, alignUp_of_dvd (by decide) haligned]
    refine ⟨fun c hc => ?_, pairwise_cons.mpr ⟨fun c hc => ?_, hapart⟩⟩
    · rcases mem_cons.mp hc with rfl | hc
      · exact ⟨hhere, t, mem_cons_self, rfl⟩
      · obtain ⟨hle, u, hu, heq⟩ := hdown c hc
        exact ⟨hle, u, mem_cons_of_mem _ hu, heq⟩
    · obtain ⟨-, u, hu, heq⟩ := hdown c hc
      rw [heq]
      exact hnext u hu

theorem binarySearchForPointer_eq_some (hsorted : ptrs.Pairwise (· < ·)) :
    binarySearchForPointer ptr ptrs = some i ↔ ptrs[i]? = some ptr := by
  unfold binarySearchForPointer
  rw [Bisection.bisect_eq_some_iff]
  constructor
  · rintro ⟨-, hi, hstop, -⟩
    rw [pointerVerdict, getElem?_eq_getElem hi] at hstop
    dsimp only at hstop
    split_ifs at hstop with heq
    rw [getElem?_eq_getElem hi, heq]
  · intro hi
    obtain ⟨hlt, rfl⟩ := List.getElem?_eq_some_iff.mp hi
    have hless := pairwise_iff_getElem.mp hsorted
    refine ⟨Nat.zero_le i, hlt, ?_, fun m _ => ⟨fun hm => ?_, fun hm => ?_⟩⟩
    · rw [pointerVerdict, hi]
      exact if_pos rfl
    · have hlow := hless m i (hm.trans hlt) hlt hm
      rw [pointerVerdict, getElem?_eq_getElem (hm.trans hlt)]
      exact (if_neg hlow.ne).trans (if_pos hlow)
    · rw [pointerVerdict]
      cases hp : ptrs[m]? with
      | none => rfl
      | some p =>
        obtain ⟨hlen, rfl⟩ := List.getElem?_eq_some_iff.mp hp
        have hhigh := hless i m hlt hlen hm
        exact (if_neg hhigh.ne').trans (if_neg (not_lt.mpr hhigh.le))

/-- The sort ends with the pointers in order; then each cell moves down, no copy reaches a cell
that is still to be copied, and exactly the recorded pointers are found. -/
theorem compaction_order (hdistinct : objs.Nodup) :
    ∃ sorted, quicksortPointers objs = some sorted ∧ sorted.Perm objs ∧
      sorted.Pairwise (· < ·) ∧
      (∀ size heap, LiveCells size heap objs →
        (∀ c ∈ slideCells size heap sorted, c.writePtr ≤ c.source) ∧
        (slideCells size heap sorted).Pairwise fun c d => c.writePtr + c.size ≤ d.source) ∧
      (∀ ptr i, binarySearchForPointer ptr sorted = some i ↔ sorted[i]? = some ptr) ∧
      ∀ ptr, (binarySearchForPointer ptr sorted).isSome ↔ ptr ∈ objs := by
  obtain ⟨sorted, hsort, hperm, hle⟩ := HoareSort.quicksort_sorted (le_refl objs.length)
  have hsorted : sorted.Pairwise (· < ·) :=
    (hle.and (hperm.nodup_iff.mpr hdistinct)).imp fun h => lt_of_le_of_ne h.1 h.2
  have hfind : ∀ ptr i, binarySearchForPointer ptr sorted = some i ↔ sorted[i]? = some ptr :=
    fun _ _ => binarySearchForPointer_eq_some hsorted
  refine ⟨sorted, hsort, hperm, hsorted, fun size heap h => ?_, hfind, fun ptr => ?_⟩
  · have hcells := h.mono hperm.subset
    obtain ⟨hdown, hapart⟩ := slideCells_spec hcells hsorted h.start hcells.above
    exact ⟨fun c hc => (hdown c hc).1, hapart⟩
  · rw [Option.isSome_iff_exists, ← hperm.mem_iff, mem_iff_getElem?]
    exact exists_congr fun i => hfind ptr i

theorem compaction_order_three : [24, 17, 8].Nodup ∧
    ∃ sorted, quicksortPointers [24, 17, 8] = some sorted ∧ sorted.Perm [24, 17, 8] ∧
      sorted.Pairwise (· < ·) ∧
      (∀ size heap, LiveCells size heap [24, 17, 8] →
        (∀ c ∈ slideCells size heap sorted, c.writePtr ≤ c.source) ∧
        (slideCells size heap sorted).Pairwise fun c d => c.writePtr + c.size ≤ d.source) ∧
      (∀ ptr i, binarySearchForPointer ptr sorted = some i ↔ sorted[i]? = some ptr) ∧
      ∀ ptr, (binarySearchForPointer ptr sorted).isSome ↔ ptr ∈ [24, 17, 8] :=
  ⟨by decide, compaction_order (by decide)⟩

/-- The model of the collection, which sorts by insertion, has the same order. -/
theorem quicksortPointers_eq (objs : List ℕ) :
    quicksortPointers objs = some (objs.insertionSort (· ≤ ·)) := by
  obtain ⟨sorted, hsort, hperm, hle⟩ := HoareSort.quicksort_sorted (le_refl objs.length)
  have heq : sorted = objs.insertionSort (· ≤ ·) :=
    (hperm.trans (perm_insertionSort (· ≤ ·) objs).symm).eq_of_pairwise' hle
      (pairwise_insertionSort (· ≤ ·) objs)
  exact hsort.trans (congrArg some heq)

end TraceJvm
