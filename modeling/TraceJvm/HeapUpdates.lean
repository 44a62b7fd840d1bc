import TraceJvm.Collection

/-! Writes to the heap between collections keep it well formed: in place, and by the bump
allocator. -/
namespace TraceJvm

open Placement

namespace GcHeap

def objectAt (h : GcHeap) (p : ℕ) : Option HeapObject :=
  if h.base ≤ p ∧ p < h.base + h.used then
    match h.memory p with
    | some (.object o) => some o
    | _ => none
  else none

def update (h : GcHeap) (p : ℕ) (b : HeapBlock) : GcHeap :=
  { h with memory := Function.update h.memory p (some b) }

def withRoots (h : GcHeap) (pending : ℕ) (roots : List ℕ) : GcHeap :=
  { h with pending := pending, roots := roots }

/-- The heap with more memory in use, which holds no block yet. -/
def take (h : GcHeap) (size : ℕ) : GcHeap :=
  { h with memory := h.memory.clear (h.base + h.used) size, used := h.used + size }

/-- `bump_allocate`: the address of new memory, or null if even a collection leaves too little. -/
def bumpAllocate (h : GcHeap) (bytes newHeap : ℕ) : Option (Option ℕ × GcHeap) :=
  let size := alignUp bytes 8
  if h.capacity < h.used + size then
    (h.majorGc newHeap).map fun h =>
      if h.capacity < h.used + size then (none, h) else (some (h.base + h.used), h.take size)
  else some (some (h.base + h.used), h.take size)

variable {h : GcHeap} {p q : ℕ} {b c : HeapBlock} {o : HeapObject}

theorem objectAt_eq : h.objectAt p = some o ↔ h.Cell p (.object o) := by
  unfold objectAt
  constructor
  · intro ho
    split at ho
    · rename_i hplace
      split at ho
      · rename_i o' ho'
        cases ho
        exact ⟨ho', hplace.1, hplace.2⟩
      · cases ho
    · cases ho
  · intro hp
    rw [if_pos ⟨hp.above, hp.below⟩]
    simp only [hp.block]

theorem cell_withRoots {x : ℕ} {rs : List ℕ} : (h.withRoots x rs).Cell q c ↔ h.Cell q c :=
  ⟨fun hq => { hq with }, fun hq => { hq with }⟩

theorem cell_write (habove : h.base ≤ p) (hbelow : p < h.base + h.used) {b' : HeapBlock} :
    (h.update p b').Cell q c ↔ q = p ∧ c = b' ∨ q ≠ p ∧ h.Cell q c := by
  constructor
  · rintro ⟨hblock, habove, hbelow⟩
    by_cases hq : q = p
    · subst hq
      replace hblock : Function.update h.memory q (some b') q = some c := hblock
      rw [Function.update_self] at hblock
      exact .inl ⟨rfl, (Option.some.inj hblock).symm⟩
    · replace hblock : Function.update h.memory p (some b') q = some c := hblock
      rw [Function.update_of_ne hq] at hblock
      exact .inr ⟨hq, hblock, habove, hbelow⟩
  · rintro (⟨rfl, rfl⟩ | ⟨hq, hcell⟩)
    · exact ⟨Function.update_self .., habove, hbelow⟩
    · exact ⟨(Function.update_of_ne hq ..).trans hcell.block, hcell.above, hcell.below⟩

theorem cell_update (hp : h.Cell p b) {b' : HeapBlock} :
    (h.update p b').Cell q c ↔ q = p ∧ c = b' ∨ q ≠ p ∧ h.Cell q c :=
  cell_write hp.above hp.below

/-- The new contents of a block: what they point to is in the heap, and no other object has the
monitor of an object. -/
structure Replaces (h : GcHeap) (p : ℕ) (b b' : HeapBlock) : Prop where
  size : b'.size = b.size
  unflagged : b'.Unflagged
  object : ∀ o', b' = .object o' → (∃ o, b = .object o) ∧
    (∀ a, o'.header.monitor = some a → p < a ∧ (∃ c, h.Cell a (.monitor c)) ∧
      ∀ q, h.memory.monitorOf q = some a → (∃ b, h.Cell q b) → q = p) ∧
    (∀ s ∈ o'.strongSlots, h.Pointer (o'.contents s) → ∃ q, h.Cell (o'.contents s) (.object q)) ∧
    (o'.descriptor.isReference = true → h.Pointer (o'.contents referentSlot) →
      ∃ q, h.Cell (o'.contents referentSlot) (.object q))
  monitor : ∀ c', b' = .monitor c' → ∃ c, b = .monitor c

namespace Valid

variable {b' : HeapBlock}

theorem own_monitor (hv : h.Valid) (hp : h.Cell p (.object o)) {a : ℕ}
    (ha : o.header.monitor = some a) : p < a ∧ (∃ c, h.Cell a (.monitor c)) ∧
      ∀ q, h.memory.monitorOf q = some a → (∃ b, h.Cell q b) → q = p := by
  have hmonitor : h.memory.monitorOf p = some a := by
    unfold HeapMemory.monitorOf
    simp only [hp.block, ha]
  obtain ⟨hlt, hcell⟩ := hv.monitorOf_cell hp hmonitor
  exact ⟨hlt, hcell, fun q hq hcell => hv.owner q p a hq hmonitor hcell ⟨_, hp⟩⟩

theorem object_update (hp : h.Cell p b) (hr : h.Replaces p b b')
    (ho : ∃ o, h.Cell q (.object o)) : ∃ o, (h.update p b').Cell q (.object o) := by
  obtain ⟨o, ho⟩ := ho
  by_cases hq : q = p
  · subst hq
    have hsame := hp.block.symm.trans ho.block
    cases hsame
    cases b' with
    | object o' => exact ⟨o', (cell_update hp).mpr (.inl ⟨rfl, rfl⟩)⟩
    | monitor c =>
      obtain ⟨c', hc'⟩ := hr.monitor c rfl
      cases hc'
  · exact ⟨o, (cell_update hp).mpr (.inr ⟨hq, ho⟩)⟩

theorem monitor_update (hp : h.Cell p b) (hr : h.Replaces p b b')
    (hc : ∃ c, h.Cell q (.monitor c)) : ∃ c, (h.update p b').Cell q (.monitor c) := by
  obtain ⟨c, hc⟩ := hc
  by_cases hq : q = p
  · subst hq
    have hsame := hp.block.symm.trans hc.block
    cases hsame
    cases b' with
    | object o' =>
      obtain ⟨⟨_, hcase⟩, _⟩ := hr.object o' rfl
      cases hcase
    | monitor c' => exact ⟨c', (cell_update hp).mpr (.inl ⟨rfl, rfl⟩)⟩
  · exact ⟨c, (cell_update hp).mpr (.inr ⟨hq, hc⟩)⟩

theorem monitorOf_update {a : ℕ} (hm : (h.update p b').memory.monitorOf q = some a) :
    (q = p ∧ ∃ o', b' = .object o' ∧ o'.header.monitor = some a) ∨
      q ≠ p ∧ h.memory.monitorOf q = some a := by
  have hmemory : (h.update p b').memory = Function.update h.memory p (some b') := rfl
  rw [hmemory] at hm
  unfold HeapMemory.monitorOf at hm ⊢
  by_cases hq : q = p
  · rw [hq, Function.update_self] at hm
    cases b' with
    | object o' => exact .inl ⟨hq, o', rfl, hm⟩
    | monitor c => cases hm
  · rw [Function.update_of_ne hq] at hm
    exact .inr ⟨hq, hm⟩

theorem update (hv : h.Valid) (hp : h.Cell p b) (hr : h.Replaces p b b') :
    (h.update p b').Valid where
  base_pos := hv.base_pos
  base_aligned := hv.base_aligned
  used_le := hv.used_le
  used_aligned := hv.used_aligned
  aligned q c hq := by
    rcases (cell_update hp).mp hq with ⟨rfl, -⟩ | ⟨-, hcell⟩
    · exact hv.aligned q b hp
    · exact hv.aligned q c hcell
  inside q c hq := by
    rcases (cell_update hp).mp hq with ⟨rfl, rfl⟩ | ⟨-, hcell⟩
    · rw [hr.size]
      exact hv.inside q b hp
    · exact hv.inside q c hcell
  disjoint q c q' c' hq hq' hlt := by
    rcases (cell_update hp).mp hq with ⟨rfl, rfl⟩ | ⟨-, hcell⟩
    · rw [hr.size]
      rcases (cell_update hp).mp hq' with ⟨rfl, -⟩ | ⟨-, hcell'⟩
      · exact absurd hlt (lt_irrefl _)
      · exact hv.disjoint q b q' c' hp hcell' hlt
    · rcases (cell_update hp).mp hq' with ⟨rfl, -⟩ | ⟨-, hcell'⟩
      · exact hv.disjoint q c q' b hcell hp hlt
      · exact hv.disjoint q c q' c' hcell hcell' hlt
  monitors q o a hq hheader := by
    rcases (cell_update hp).mp hq with ⟨rfl, rfl⟩ | ⟨-, hcell⟩
    · obtain ⟨-, hmonitor, -⟩ := hr.object o rfl
      obtain ⟨hlt, hc, -⟩ := hmonitor a (by rw [hheader]; rfl)
      exact ⟨hlt, monitor_update hp hr hc⟩
    · obtain ⟨hlt, hc⟩ := hv.monitors q o a hcell hheader
      exact ⟨hlt, monitor_update hp hr hc⟩
  owner q q' a hq hq' := by
    have hcells : ∀ x, (∃ c, (h.update p b').Cell x c) → ∃ c, h.Cell x c := by
      rintro x ⟨c, hc⟩
      rcases (cell_update hp).mp hc with ⟨rfl, -⟩ | ⟨-, hcell⟩
      · exact ⟨b, hp⟩
      · exact ⟨c, hcell⟩
    intro hcell hcell'
    rcases monitorOf_update hq with ⟨rfl, o, rfl, hm⟩ | ⟨hne, hm⟩
    · obtain ⟨-, hmonitor, -⟩ := hr.object o rfl
      rcases monitorOf_update hq' with ⟨heq, -⟩ | ⟨-, hm'⟩
      · exact heq.symm
      · exact ((hmonitor a hm).2.2 q' hm' (hcells q' hcell')).symm
    · rcases monitorOf_update hq' with ⟨rfl, o, rfl, hm'⟩ | ⟨-, hm'⟩
      · obtain ⟨-, hmonitor, -⟩ := hr.object o rfl
        exact (hmonitor a hm').2.2 q hm (hcells q hcell)
      · exact hv.owner q q' a hm hm' (hcells q hcell) (hcells q' hcell')
  unflagged q c hq := by
    rcases (cell_update hp).mp hq with ⟨-, rfl⟩ | ⟨-, hcell⟩
    · exact hr.unflagged
    · exact hv.unflagged q c hcell
  fields q o s hq hs hptr := by
    apply object_update hp hr
    rcases (cell_update hp).mp hq with ⟨-, rfl⟩ | ⟨-, hcell⟩
    · obtain ⟨-, -, hstrong, -⟩ := hr.object o rfl
      exact hstrong s hs hptr
    · exact hv.fields q o s hcell hs hptr
  referents q o hq href hptr := by
    apply object_update hp hr
    rcases (cell_update hp).mp hq with ⟨-, rfl⟩ | ⟨-, hcell⟩
    · obtain ⟨-, -, -, hweak⟩ := hr.object o rfl
      exact hweak href hptr
    · exact hv.referents q o hcell href hptr
  roots u hu hptr := object_update hp hr (hv.roots u hu hptr)

/-- Other roots with valid pointers. -/
theorem withRoots (hv : h.Valid) {x : ℕ} {rs : List ℕ}
    (hrs : ∀ v ∈ x :: rs, h.Pointer v → ∃ o, h.Cell v (.object o)) : (h.withRoots x rs).Valid :=
  { hv with
    aligned q c hq := hv.aligned q c (cell_withRoots.mp hq)
    inside q c hq := hv.inside q c (cell_withRoots.mp hq)
    disjoint q c q' c' hq hq' := hv.disjoint q c q' c' (cell_withRoots.mp hq) (cell_withRoots.mp hq')
    monitors q o a hq hheader := by
      obtain ⟨hlt, d, hd⟩ := hv.monitors q o a (cell_withRoots.mp hq) hheader
      exact ⟨hlt, d, cell_withRoots.mpr hd⟩
    owner q q' a hq hq' := by
      rintro ⟨c, hc⟩ ⟨c', hc'⟩
      exact hv.owner q q' a hq hq' ⟨c, cell_withRoots.mp hc⟩ ⟨c', cell_withRoots.mp hc'⟩
    unflagged q c hq := hv.unflagged q c (cell_withRoots.mp hq)
    fields q o s hq hs hptr := by
      obtain ⟨o', ho'⟩ := hv.fields q o s (cell_withRoots.mp hq) hs hptr
      exact ⟨o', cell_withRoots.mpr ho'⟩
    referents q o hq href hptr := by
      obtain ⟨o', ho'⟩ := hv.referents q o (cell_withRoots.mp hq) href hptr
      exact ⟨o', cell_withRoots.mpr ho'⟩
    roots u hu hptr := by
      obtain ⟨o', ho'⟩ := hrs u hu hptr
      exact ⟨o', cell_withRoots.mpr ho'⟩ }

end Valid

/-! ### New blocks -/

theorem cell_take (hv : h.Valid) {size : ℕ} : (h.take size).Cell q c ↔ h.Cell q c := by
  constructor
  · rintro ⟨hblock, habove, hbelow⟩
    replace hblock : h.memory.clear (h.base + h.used) size q = some c := hblock
    have hleft := (HeapMemory.clear_ne_none (by rw [hblock]; nofun)).2
    refine ⟨HeapMemory.clear_le hblock, habove, ?_⟩
    replace hbelow : q < h.base + (h.used + size) := hbelow
    omega
  · intro hcell
    have hinside := hv.inside q c hcell
    refine ⟨HeapMemory.clear_of_apart hcell.block (.inl hinside), hcell.above, ?_⟩
    have hbelow := hcell.below
    show q < h.base + (h.used + size)
    omega

theorem monitorOf_take {size : ℕ} {a : ℕ} (h' : (h.take size).memory.monitorOf q = some a) :
    h.memory.monitorOf q = some a := by
  unfold HeapMemory.monitorOf at h' ⊢
  cases hq : (h.take size).memory q with
  | none =>
    rw [hq] at h'
    cases h'
  | some c =>
    rw [hq] at h'
    have hold : h.memory q = some c := HeapMemory.clear_le hq
    rw [hold]
    exact h'

theorem Valid.take (hv : h.Valid) {size : ℕ} (hdvd : 8 ∣ size)
    (hsize : h.used + size ≤ h.capacity) :
    (h.take size).Valid where
  base_pos := hv.base_pos
  base_aligned := hv.base_aligned
  used_le := hsize
  used_aligned := Nat.dvd_add hv.used_aligned hdvd
  aligned q c hq := hv.aligned q c ((cell_take hv).mp hq)
  inside q c hq := by
    have hinside := hv.inside q c ((cell_take hv).mp hq)
    show q + c.size ≤ h.base + (h.used + size)
    omega
  disjoint q c q' c' hq hq' hlt :=
    hv.disjoint q c q' c' ((cell_take hv).mp hq) ((cell_take hv).mp hq') hlt
  monitors q o a hq hheader := by
    obtain ⟨hlt, d, hd⟩ := hv.monitors q o a ((cell_take hv).mp hq) hheader
    exact ⟨hlt, d, (cell_take hv).mpr hd⟩
  owner q q' a hq hq' := by
    rintro ⟨c, hc⟩ ⟨c', hc'⟩
    exact hv.owner q q' a (monitorOf_take hq) (monitorOf_take hq') ⟨c, (cell_take hv).mp hc⟩
      ⟨c', (cell_take hv).mp hc'⟩
  unflagged q c hq := hv.unflagged q c ((cell_take hv).mp hq)
  fields q o s hq hs hptr := by
    obtain ⟨o', ho'⟩ := hv.fields q o s ((cell_take hv).mp hq) hs hptr
    exact ⟨o', (cell_take hv).mpr ho'⟩
  referents q o hq href hptr := by
    obtain ⟨o', ho'⟩ := hv.referents q o ((cell_take hv).mp hq) href hptr
    exact ⟨o', (cell_take hv).mpr ho'⟩
  roots u hu hptr := by
    obtain ⟨o', ho'⟩ := hv.roots u hu hptr
    exact ⟨o', (cell_take hv).mpr ho'⟩

structure Fits (h : GcHeap) (a : ℕ) (b : HeapBlock) : Prop where
  aligned : 8 ∣ a
  above : h.base ≤ a
  inside : a + b.size ≤ h.base + h.used
  last : ∀ q c, h.Cell q c → q + c.size ≤ a
  unflagged : b.Unflagged
  object : ∀ o, b = .object o → o.header.monitor = none ∧
    (∀ s ∈ o.strongSlots, h.Pointer (o.contents s) → ∃ q, h.Cell (o.contents s) (.object q)) ∧
    (o.descriptor.isReference = true → h.Pointer (o.contents referentSlot) →
      ∃ q, h.Cell (o.contents referentSlot) (.object q))

namespace Fits

variable {a : ℕ} (hf : h.Fits a b)

include hf

theorem cell : (h.update a b).Cell q c ↔ q = a ∧ c = b ∨ q ≠ a ∧ h.Cell q c := by
  have hinside := hf.inside
  have hpos := b.size_pos
  exact cell_write hf.above (by omega)

theorem old (hcell : h.Cell q c) : (h.update a b).Cell q c := by
  have hlast := hf.last q c hcell
  have hpos := c.size_pos
  exact hf.cell.mpr (.inr ⟨by omega, hcell⟩)

theorem monitorOf_eq {m : ℕ} (hm : (h.update a b).memory.monitorOf q = some m) :
    q ≠ a ∧ h.memory.monitorOf q = some m := by
  have hmemory : (h.update a b).memory = Function.update h.memory a (some b) := rfl
  rw [hmemory] at hm
  unfold HeapMemory.monitorOf at hm ⊢
  by_cases hq : q = a
  · rw [hq, Function.update_self] at hm
    cases b with
    | object o =>
      have hnone := (hf.object o rfl).1
      dsimp only at hm
      rw [hnone] at hm
      cases hm
    | monitor c => cases hm
  · rw [Function.update_of_ne hq] at hm
    exact ⟨hq, hm⟩

theorem valid (hv : h.Valid) : (h.update a b).Valid where
  base_pos := hv.base_pos
  base_aligned := hv.base_aligned
  used_le := hv.used_le
  used_aligned := hv.used_aligned
  aligned q c hq := by
    rcases hf.cell.mp hq with ⟨rfl, -⟩ | ⟨-, hcell⟩
    · exact hf.aligned
    · exact hv.aligned q c hcell
  inside q c hq := by
    rcases hf.cell.mp hq with ⟨rfl, rfl⟩ | ⟨-, hcell⟩
    · exact hf.inside
    · exact hv.inside q c hcell
  disjoint q c q' c' hq hq' hlt := by
    rcases hf.cell.mp hq' with ⟨rfl, -⟩ | ⟨-, hcell'⟩
    · rcases hf.cell.mp hq with ⟨rfl, -⟩ | ⟨-, hcell⟩
      · exact absurd hlt (lt_irrefl _)
      · exact hf.last q c hcell
    · rcases hf.cell.mp hq with ⟨rfl, -⟩ | ⟨-, hcell⟩
      · have hlast := hf.last q' c' hcell'
        omega
      · exact hv.disjoint q c q' c' hcell hcell' hlt
  monitors q o m hq hheader := by
    rcases hf.cell.mp hq with ⟨-, rfl⟩ | ⟨-, hcell⟩
    · have hnone := (hf.object o rfl).1
      rw [hheader] at hnone
      cases hnone
    · obtain ⟨hlt, d, hd⟩ := hv.monitors q o m hcell hheader
      exact ⟨hlt, d, hf.old hd⟩
  owner q q' m hq hq' := by
    obtain ⟨hqa, hm⟩ := hf.monitorOf_eq hq
    obtain ⟨hqa', hm'⟩ := hf.monitorOf_eq hq'
    rintro ⟨c, hc⟩ ⟨c', hc'⟩
    apply hv.owner q q' m hm hm'
    · rcases hf.cell.mp hc with ⟨heq, -⟩ | ⟨-, hcell⟩
      · exact absurd heq hqa
      · exact ⟨c, hcell⟩
    · rcases hf.cell.mp hc' with ⟨heq, -⟩ | ⟨-, hcell⟩
      · exact absurd heq hqa'
      · exact ⟨c', hcell⟩
  unflagged q c hq := by
    rcases hf.cell.mp hq with ⟨-, rfl⟩ | ⟨-, hcell⟩
    · exact hf.unflagged
    · exact hv.unflagged q c hcell
  fields q o s hq hs hptr := by
    rcases hf.cell.mp hq with ⟨-, rfl⟩ | ⟨-, hcell⟩
    · obtain ⟨o', ho'⟩ := (hf.object o rfl).2.1 s hs hptr
      exact ⟨o', hf.old ho'⟩
    · obtain ⟨o', ho'⟩ := hv.fields q o s hcell hs hptr
      exact ⟨o', hf.old ho'⟩
  referents q o hq href hptr := by
    rcases hf.cell.mp hq with ⟨-, rfl⟩ | ⟨-, hcell⟩
    · obtain ⟨o', ho'⟩ := (hf.object o rfl).2.2 href hptr
      exact ⟨o', hf.old ho'⟩
    · obtain ⟨o', ho'⟩ := hv.referents q o hcell href hptr
      exact ⟨o', hf.old ho'⟩
  roots u hu hptr := by
    obtain ⟨o', ho'⟩ := hv.roots u hu hptr
    exact ⟨o', hf.old ho'⟩

end Fits

/-! ### The bump allocator -/

theorem Valid.target_base (hv : h.Valid) : h.Target h.base where
  pos := hv.base_pos
  aligned := hv.base_aligned
  region := .inl rfl
  fresh p _ hout := by
    unfold InHeap at hout
    omega

/-- The heap that an allocation finds: the old one, or what a collection leaves of it. -/
def Gathered (h h' : GcHeap) : Prop :=
  h' = h ∨ h.Target h'.base ∧ ∃ live r, Collected h h' live r

theorem bumpAllocate_spec (hv : h.Valid) {newHeap : ℕ} (htarget : h.Target newHeap) (bytes : ℕ) :
    ∃ a h₁ h₂, h.bumpAllocate bytes newHeap = some (a, h₂) ∧ h.Gathered h₁ ∧ h₁.Valid ∧
      (a = none ∧ h₂ = h₁ ∨ a = some (h₁.base + h₁.used) ∧ h₂ = h₁.take (alignUp bytes 8) ∧
        h₁.used + alignUp bytes 8 ≤ h₁.capacity) := by
  unfold bumpAllocate
  by_cases hfull : h.capacity < h.used + alignUp bytes 8
  · rw [if_pos hfull]
    obtain ⟨h₁, live, r, hgc, rfl, hc⟩ := majorGc_spec hv htarget
    rw [hgc, Option.map_some]
    have hvalid := hc.valid hv htarget
    by_cases hagain : h₁.capacity < h₁.used + alignUp bytes 8
    · rw [if_pos hagain]
      exact ⟨_, h₁, _, rfl, .inr ⟨htarget, live, r, hc⟩, hvalid, .inl ⟨rfl, rfl⟩⟩
    · rw [if_neg hagain]
      exact ⟨_, h₁, _, rfl, .inr ⟨htarget, live, r, hc⟩, hvalid, .inr ⟨rfl, rfl, by omega⟩⟩
  · rw [if_neg hfull]
    exact ⟨_, h, _, rfl, .inl rfl, hv, .inr ⟨rfl, rfl, by omega⟩⟩

theorem take_last (hv : h.Valid) {size : ℕ} (hq : (h.take size).Cell q c) :
    q + c.size ≤ h.base + h.used :=
  hv.inside q c ((cell_take hv).mp hq)

/-- New memory can hold a block that refers to objects only. -/
theorem Valid.fits (hv : h.Valid) (hflag : b.Unflagged) (hobject : ∀ o, b = .object o →
    o.header.monitor = none ∧
    (∀ s ∈ o.strongSlots, h.Pointer (o.contents s) → ∃ q, h.Cell (o.contents s) (.object q)) ∧
    (o.descriptor.isReference = true → h.Pointer (o.contents referentSlot) →
      ∃ q, h.Cell (o.contents referentSlot) (.object q))) :
    (h.take b.size).Fits (h.base + h.used) b where
  aligned := Nat.dvd_add hv.base_aligned hv.used_aligned
  above := Nat.le_add_right _ _
  inside := by
    show h.base + h.used + b.size ≤ h.base + (h.used + b.size)
    omega
  last q c hq := take_last hv hq
  unflagged := hflag
  object o heq := by
    obtain ⟨hheader, hstrong, hweak⟩ := hobject o heq
    refine ⟨hheader, fun s hs hptr => ?_, fun href hptr => ?_⟩
    · obtain ⟨q, hq⟩ := hstrong s hs hptr
      exact ⟨q, (cell_take hv).mpr hq⟩
    · obtain ⟨q, hq⟩ := hweak href hptr
      exact ⟨q, (cell_take hv).mpr hq⟩

end GcHeap

end TraceJvm
