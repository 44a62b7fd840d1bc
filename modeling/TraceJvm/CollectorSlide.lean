import TraceJvm.CollectorMark

/-! The copying phase moves every listed block to its new place before anything is written over
it. -/
namespace TraceJvm

open Placement Function List HeapMemory

/-! ### Blocks -/

theorem HeapObject.size_pos (o : HeapObject) : 0 < o.size := by
  unfold HeapObject.size
  cases hkind : o.descriptor.kind with
  | ordinary => exact Nat.lt_of_lt_of_le (by decide) (o.descriptor.fits hkind).1
  | ordinaryArray
  | primitiveArray => exact Nat.lt_of_lt_of_le (by decide) (Nat.le_add_right arrayDataOffset _)

namespace HeapBlock

theorem size_pos (b : HeapBlock) : 0 < b.size := by
  cases b with
  | object o => exact Nat.lt_of_lt_of_le o.size_pos (le_alignUp _ (by decide))
  | monitor c => exact Nat.succ_pos _

theorem dvd_size (b : HeapBlock) : 8 ∣ b.size := by
  cases b with
  | object o => exact dvd_alignUp _ _
  | monitor c => exact ⟨2, rfl⟩

end HeapBlock

namespace HeapMemory

variable {m m' : HeapMemory} {p : ℕ}

variable {b : HeapBlock}

theorem marked_size {v : Set ℕ} (h : m.marked v p = some b) :
    ∃ c, m p = some c ∧ c.size = b.size := by
  classical
  obtain ⟨c, hc, rfl⟩ := Option.map_eq_some_iff.mp h
  refine ⟨c, hc, ?_⟩
  cases c with
  | object o =>
    by_cases hp : p ∈ v
    · simp only [hp, if_true, HeapBlock.size, HeapObject.size, HeapObject.mark_descriptor,
        HeapObject.mark_length]
    · simp only [hp, if_false]
  | monitor c => rfl

variable {a : ℕ} {c : HeapBlock}

theorem clear_of_apart {n : ℕ} (hc : m p = some c)
    (hapart : p + c.size ≤ a ∨ a + n ≤ p) : m.clear a n p = some c := by
  unfold clear
  rw [hc, Option.filter_some, if_pos (by simpa using hapart)]

theorem clear_ne_none {n : ℕ} (h : m.clear a n p ≠ none) : m p ≠ none ∧ (p < a ∨ a + n ≤ p) := by
  unfold clear at h
  cases hc : m p with
  | none =>
    rw [hc] at h
    exact absurd rfl h
  | some c =>
    rw [hc, Option.filter_some] at h
    have hpos := c.size_pos
    split at h
    · rename_i hapart
      simp only [decide_eq_true_eq] at hapart
      exact ⟨nofun, by omega⟩
    · exact absurd rfl h

theorem clear_le {n : ℕ} (h : m.clear a n p = some c) : m p = some c := by
  unfold clear at h
  exact (Option.filter_eq_some_iff.mp h).1

theorem write_of_apart (hc : m p = some c)
    (hapart : p + c.size ≤ a ∨ a + b.size ≤ p) : m.write a b p = some c := by
  have hpa : p ≠ a := by
    have hb := b.size_pos
    have hc := c.size_pos
    omega
  unfold write
  rw [update_of_ne hpa, clear_of_apart hc hapart]

theorem write_self (a : ℕ) (b : HeapBlock) : m.write a b a = some b := update_self ..

theorem write_ne_none (h : m.write a b p ≠ none) :
    p = a ∨ m p ≠ none ∧ (p < a ∨ a + b.size ≤ p) := by
  by_cases hpa : p = a
  · exact .inl hpa
  · unfold write at h
    rw [update_of_ne hpa] at h
    exact .inr (clear_ne_none h)

theorem markWord_congr (hp : m p = m' p)
    (hmonitor : ∀ a, m'.monitorOf p = some a → m a = m' a) : m.markWord p = m'.markWord p := by
  unfold markWord
  rw [hp]
  unfold monitorOf at hmonitor
  cases hb : m' p with
  | none => rfl
  | some b =>
    cases b with
    | monitor c => rfl
    | object o =>
      dsimp only
      cases hheader : o.header with
      | mark w => rfl
      | expanded a =>
        rw [hb] at hmonitor
        dsimp only
        rw [hmonitor a (by simp only [hheader, ObjectHeader.monitor])]

theorem setMarkWord_congr (hp : m p = m' p)
    (hmonitor : ∀ a, m'.monitorOf p = some a → m a = m' a) (w : MarkWord) {q : ℕ}
    (hq : m q = m' q) : m.setMarkWord p w q = m'.setMarkWord p w q := by
  unfold setMarkWord
  rw [hp]
  unfold monitorOf at hmonitor
  cases hb : m' p with
  | none => exact hq
  | some b =>
    cases b with
    | monitor c => exact hq
    | object o =>
      dsimp only
      cases hheader : o.header with
      | mark w' => simp only [update_apply, hq]
      | expanded a =>
        rw [hb] at hmonitor
        dsimp only
        rw [hmonitor a (by simp only [hheader, ObjectHeader.monitor])]
        cases hc : m' a with
        | none => exact hq
        | some c => cases c <;> simp only [update_apply, hq]

theorem setMarkWord_cases (m : HeapMemory) (p : ℕ) (w : MarkWord) :
    m.setMarkWord p w = m ∨
      ∃ a b, (a = p ∨ m.monitorOf p = some a) ∧ m a ≠ none ∧
        m.setMarkWord p w = update m a (some b) := by
  unfold setMarkWord monitorOf
  cases hb : m p with
  | none => exact .inl rfl
  | some b =>
    cases b with
    | monitor c => exact .inl rfl
    | object o =>
      dsimp only
      cases hheader : o.header with
      | mark w' => exact .inr ⟨p, _, .inl rfl, by simp [hb], rfl⟩
      | expanded a =>
        dsimp only
        cases hc : m a with
        | none => exact .inl rfl
        | some c =>
          cases c with
          | object o' => exact .inl rfl
          | monitor c => exact .inr ⟨a, _, .inr rfl, by simp [hc], rfl⟩

theorem setMarkWord_of_ne (w : MarkWord) {q : ℕ} (hq : q ≠ p) (hmonitor : m.monitorOf p ≠ some q) :
    m.setMarkWord p w q = m q := by
  rcases setMarkWord_cases m p w with hset | ⟨a, b, ha, -, hset⟩
  · rw [hset]
  · rw [hset, update_of_ne]
    rintro rfl
    exact ha.elim hq hmonitor

theorem setMarkWord_ne_none {w : MarkWord} {q : ℕ} (h : m.setMarkWord p w q ≠ none) :
    m q ≠ none := by
  rcases setMarkWord_cases m p w with hset | ⟨a, b, -, ha, hset⟩
  · rwa [hset] at h
  · rw [hset] at h
    by_cases hq : q = a
    · rwa [hq]
    · rwa [update_of_ne hq] at h

end HeapMemory

theorem mem_entries {m : HeapMemory} {p t : ℕ} :
    t ∈ m.entries p ↔ t = p ∨ ∃ a, m.monitorOf p = some a ∧ t = a + 1 := by
  unfold HeapMemory.entries
  cases hmonitor : m.monitorOf p with
  | none => simp
  | some a => simp

/-! ### The listed blocks -/

/-- The address of an entry of `objs`. -/
def cellAddress (t : ℕ) : ℕ := t - t % 2

structure Listed (h : GcHeap) (live objs : List ℕ) : Prop where
  order : objs.Pairwise (· < ·)
  object : ∀ t ∈ objs, t % 2 = 0 → t ∈ live
  monitor : ∀ t ∈ objs, t % 2 = 1 → ∃ p ∈ live, h.memory.monitorOf p = some (t - 1)
  object_mem : ∀ p ∈ live, p ∈ objs
  monitor_mem : ∀ p ∈ live, ∀ a, h.memory.monitorOf p = some a → a + 1 ∈ objs

section Listed

variable {h : GcHeap} {live objs : List ℕ} (hv : h.Valid)
  (hlive : ∀ p ∈ live, ∃ o, h.Cell p (.object o))

include hv

theorem GcHeap.Valid.monitorOf_cell {p a : ℕ} {o : HeapObject} (hp : h.Cell p (.object o))
    (ha : h.memory.monitorOf p = some a) : p < a ∧ ∃ c, h.Cell a (.monitor c) := by
  unfold HeapMemory.monitorOf at ha
  simp only [hp.block] at ha
  apply hv.monitors p o a hp
  cases hheader : o.header with
  | mark w =>
    rw [hheader] at ha
    cases ha
  | expanded a' =>
    rw [hheader] at ha
    cases ha
    rfl

theorem GcHeap.Valid.even {p : ℕ} {b : HeapBlock} (hp : h.Cell p b) : p % 2 = 0 := by
  have haligned := hv.aligned p b hp
  omega

include hlive

theorem listed_sort (hnodup : live.Nodup) :
    Listed h live ((live.reverse.flatMap h.memory.entries).insertionSort (· ≤ ·)) := by
  have hmem (t : ℕ) : t ∈ (live.reverse.flatMap h.memory.entries).insertionSort (· ≤ ·) ↔
      ∃ p ∈ live, t = p ∨ ∃ a, h.memory.monitorOf p = some a ∧ t = a + 1 := by
    rw [mem_insertionSort, mem_flatMap]
    simp only [mem_reverse, mem_entries]
  have heven {p : ℕ} (hp : p ∈ live) : p % 2 = 0 := by
    obtain ⟨o, ho⟩ := hlive p hp
    exact hv.even ho
  have hodd {p a : ℕ} (hp : p ∈ live) (ha : h.memory.monitorOf p = some a) : a % 2 = 0 := by
    obtain ⟨o, ho⟩ := hlive p hp
    obtain ⟨-, c, hc⟩ := hv.monitorOf_cell ho ha
    exact hv.even hc
  refine ⟨?_, ?_, ?_, ?_, ?_⟩
  · have hentries : (live.reverse.flatMap h.memory.entries).Nodup := by
      rw [nodup_flatMap]
      constructor
      · intro p hp
        unfold HeapMemory.entries
        cases ha : h.memory.monitorOf p with
        | none => simp
        | some a =>
          have hp' := heven (mem_reverse.mp hp)
          have ha' := hodd (mem_reverse.mp hp) ha
          simp
          omega
      · apply (nodup_reverse.mpr hnodup).pairwise_of_forall_ne
        intro p hp q hq hpq t htp htq
        rw [mem_reverse] at hp hq
        have hp' := heven hp
        have hq' := heven hq
        obtain ⟨o, ho⟩ := hlive p hp
        obtain ⟨o', ho'⟩ := hlive q hq
        rcases mem_entries.mp htp with rfl | ⟨a, ha, rfl⟩
        · rcases mem_entries.mp htq with rfl | ⟨b, hb, rfl⟩
          · exact hpq rfl
          · have hb' := hodd hq hb
            omega
        · have ha' := hodd hp ha
          rcases mem_entries.mp htq with rfl | ⟨b, hb, hab⟩
          · omega
          · obtain rfl : a = b := by omega
            exact hpq (hv.owner p q a ha hb ⟨_, ho⟩ ⟨_, ho'⟩)
    have hsorted := pairwise_insertionSort (· ≤ ·) (live.reverse.flatMap h.memory.entries)
    have hdistinct := (perm_insertionSort (· ≤ ·) _).nodup_iff.mpr hentries
    exact (hsorted.and hdistinct).imp fun hle => lt_of_le_of_ne hle.1 hle.2
  · intro t ht hpar
    obtain ⟨p, hp, rfl | ⟨a, ha, rfl⟩⟩ := (hmem t).mp ht
    · exact hp
    · have := hodd hp ha
      omega
  · intro t ht hpar
    obtain ⟨p, hp, rfl | ⟨a, ha, rfl⟩⟩ := (hmem t).mp ht
    · have := heven hp
      omega
    · exact ⟨p, hp, ha⟩
  · intro p hp
    exact (hmem p).mpr ⟨p, hp, .inl rfl⟩
  · intro p hp a ha
    exact (hmem _).mpr ⟨p, hp, .inr ⟨a, ha, rfl⟩⟩

variable (hl : Listed h live objs) {t t' : ℕ}

include hl

theorem Listed.cell (ht : t ∈ objs) :
    t % 2 = 0 ∧ cellAddress t = t ∧ (∃ o, h.Cell (cellAddress t) (.object o)) ∨
      t % 2 = 1 ∧ cellAddress t = t - 1 ∧ ∃ c, h.Cell (cellAddress t) (.monitor c) := by
  unfold cellAddress
  rcases Nat.mod_two_eq_zero_or_one t with hpar | hpar
  · rw [hpar, Nat.sub_zero]
    exact .inl ⟨rfl, rfl, hlive t (hl.object t ht hpar)⟩
  · obtain ⟨p, hp, hmonitor⟩ := hl.monitor t ht hpar
    obtain ⟨o, ho⟩ := hlive p hp
    rw [hpar]
    exact .inr ⟨rfl, rfl, (hv.monitorOf_cell ho hmonitor).2⟩

theorem Listed.block (ht : t ∈ objs) : ∃ b, h.Cell (cellAddress t) b := by
  rcases hl.cell hv hlive ht with ⟨-, -, o, ho⟩ | ⟨-, -, c, hc⟩
  · exact ⟨_, ho⟩
  · exact ⟨_, hc⟩

theorem Listed.apart (ht : t ∈ objs) (ht' : t' ∈ objs) (hlt : t < t') {b : HeapBlock}
    (hb : h.Cell (cellAddress t) b) : cellAddress t + b.size ≤ cellAddress t' := by
  obtain ⟨b', hb'⟩ := hl.block hv hlive ht'
  apply hv.disjoint _ _ _ _ hb hb'
  rcases hl.cell hv hlive ht with ⟨hpar, haddr, o, ho⟩ | ⟨hpar, haddr, c, hc⟩
  · rcases hl.cell hv hlive ht' with ⟨hpar', haddr', -⟩ | ⟨hpar', haddr', c', hc'⟩
    · omega
    · apply lt_of_le_of_ne (by omega)
      intro heq
      have hblock := ho.block
      rw [heq, hc'.block] at hblock
      cases hblock
  · rcases hl.cell hv hlive ht' with ⟨hpar', haddr', -⟩ | ⟨hpar', haddr', -⟩ <;> omega

end Listed

/-! ### The loop that copies -/

def GcHeap.Holds (h : GcHeap) (p : ℕ) : Prop :=
  p ∈ h.pending :: h.roots ∨ ∃ a o, h.Cell a (.object o) ∧
    ((∃ s ∈ o.strongSlots, o.contents s = p) ∨
      o.descriptor.isReference = true ∧ o.contents referentSlot = p)

/-- The new heap is the old one, or else memory apart from it that nothing points to. -/
structure GcHeap.Target (h : GcHeap) (newHeap : ℕ) : Prop where
  pos : 0 < newHeap
  aligned : 8 ∣ newHeap
  region : newHeap = h.base ∨ newHeap + h.capacity ≤ h.base ∨ h.base + h.capacity ≤ newHeap
  fresh : ∀ p, h.Holds p → ¬ h.InHeap p → p < newHeap ∨ newHeap + h.capacity ≤ p

def flagged (objs : List ℕ) : Set ℕ := {x | x ∈ objs ∧ x % 2 = 0}

/-- The state of the loop: the entries of `pre` have been moved, and those of `suf` wait with the
flags of a set of objects. -/
structure Sliding (h : GcHeap) (newHeap : ℕ) (pre suf : List ℕ) (v : Set ℕ) (s : SlideState) :
    Prop where
  aligned : 8 ∣ s.writePtr
  start : newHeap ≤ s.writePtr
  room : ∀ t ∈ suf, s.writePtr + h.base ≤ cellAddress t + newHeap
  fits : s.writePtr ≤ newHeap + h.used
  length : s.newLocation.length = pre.length
  moved : ∀ t a, (t, a) ∈ pre.zip s.newLocation → newHeap ≤ a ∧ 8 ∣ a ∧
    ∃ b, h.memory (cellAddress t) = some b ∧ s.memory a = some b ∧ a + b.size ≤ s.writePtr
  waiting : ∀ t ∈ suf, s.memory (cellAddress t) = h.memory.marked v (cellAddress t)
  only : ∀ p, newHeap ≤ p → p < s.writePtr → s.memory p ≠ none → p ∈ s.newLocation
  order : (pre.zip s.newLocation).Pairwise fun x y =>
    ∀ b, h.memory (cellAddress x.1) = some b → x.2 + b.size ≤ y.2

section Slide

variable {h : GcHeap} {newHeap : ℕ} {live objs pre rest : List ℕ} {t : ℕ} {v : Set ℕ}
  {s : SlideState} (hv : h.Valid) (hlive : ∀ p ∈ live, ∃ o, h.Cell p (.object o))
  (hl : Listed h live objs) (htarget : h.Target newHeap)

include hv hlive hl htarget

variable {b : HeapBlock}

theorem Sliding.apart (hs : Sliding h newHeap pre (t :: rest) v s) (hobjs : objs = pre ++ t :: rest)
    (hb : h.Cell (cellAddress t) b) {t' : ℕ} (ht' : t' ∈ rest) {c : HeapBlock}
    (hc : h.Cell (cellAddress t') c) :
    cellAddress t' + c.size ≤ s.writePtr ∨ s.writePtr + b.size ≤ cellAddress t' := by
  have horder := hl.order
  rw [hobjs] at horder
  have hlt : t < t' := rel_of_pairwise_cons (pairwise_append.mp horder).2.1 ht'
  have ht : t ∈ objs := by simp [hobjs]
  have ht'' : t' ∈ objs := by simp [hobjs, ht']
  have hbehind := hl.apart hv hlive ht ht'' hlt hb
  have hroom := hs.room t mem_cons_self
  have hinside := hv.inside _ _ hc
  have habove := hc.above
  have hused := hv.used_le
  have hstart := hs.start
  rcases htarget.region with heq | hbelow | habove'
  · omega
  · omega
  · omega

theorem Sliding.ne_waiting (hs : Sliding h newHeap pre (t :: rest) v s)
    (hobjs : objs = pre ++ t :: rest) {a : ℕ} (hstart : newHeap ≤ a) (ha : a < s.writePtr) {t' : ℕ}
    (ht' : t' ∈ t :: rest) : a ≠ cellAddress t' := by
  obtain ⟨c, hc⟩ := hl.block hv hlive (show t' ∈ objs by
    rw [hobjs]
    exact mem_append_right _ ht')
  have hroom := hs.room t' ht'
  have hinside := hv.inside _ _ hc
  have hpos := c.size_pos
  have habove := hc.above
  have hused := hv.used_le
  have hfits := hs.fits
  rcases htarget.region with heq | hbelow | habove'
  · omega
  · omega
  · omega

/-- A block that is not flagged any more is moved. -/
theorem Sliding.move (hs : Sliding h newHeap pre (t :: rest) v s) (hobjs : objs = pre ++ t :: rest)
    (hb : h.Cell (cellAddress t) b) : Sliding h newHeap (pre ++ [t]) rest v (s.move b) := by
  have horder := hl.order
  rw [hobjs] at horder
  have hsuffix := (pairwise_append.mp horder).2.1
  have ht : t ∈ objs := by simp [hobjs]
  have hroom := hs.room t mem_cons_self
  have hinside := hv.inside _ _ hb
  have habove := hb.above
  have hzip : (pre ++ [t]).zip (s.move b).newLocation =
      pre.zip s.newLocation ++ [(t, s.writePtr)] := by
    show (pre ++ [t]).zip (s.newLocation ++ [s.writePtr]) = _
    rw [zip_append hs.length.symm]
    rfl
  refine ⟨?_, ?_, ?_, ?_, ?_, ?_, ?_, ?_, ?_⟩
  · exact Nat.dvd_add hs.aligned b.dvd_size
  · exact Nat.le_trans hs.start (Nat.le_add_right _ _)
  · intro t' ht'
    have ht'' : t' ∈ objs := by simp [hobjs, ht']
    have hbehind := hl.apart hv hlive ht ht'' (rel_of_pairwise_cons hsuffix ht') hb
    show s.writePtr + b.size + h.base ≤ _
    omega
  · show s.writePtr + b.size ≤ _
    omega
  · show (s.newLocation ++ [s.writePtr]).length = _
    rw [length_append, length_append, hs.length]
    rfl
  · intro t' a hmem
    rw [hzip] at hmem
    show _ ∧ _ ∧ ∃ c, _ ∧ s.memory.write s.writePtr b a = some c ∧ a + c.size ≤ s.writePtr + b.size
    rcases mem_append.mp hmem with hmem | hmem
    · obtain ⟨hstart, hdvd, c, hc, hnew, hend⟩ := hs.moved t' a hmem
      refine ⟨hstart, hdvd, c, hc, write_of_apart hnew (.inl hend), ?_⟩
      omega
    · cases mem_singleton.mp hmem
      exact ⟨hs.start, hs.aligned, b, hb.block, write_self _ _, le_rfl⟩
  · intro t' ht'
    obtain ⟨c, hc⟩ := hl.block hv hlive (show t' ∈ objs by simp [hobjs, ht'])
    have hwait := hs.waiting t' (mem_cons_of_mem _ ht')
    have hapart := hs.apart hv hlive hl htarget hobjs hb ht' hc
    show s.memory.write s.writePtr b _ = _
    rw [← hwait]
    cases hold : s.memory (cellAddress t') with
    | none =>
      rw [hold] at hwait
      have hblock := hc.block
      unfold HeapMemory.marked at hwait
      rw [hblock] at hwait
      cases hwait
    | some d =>
      rw [hold] at hwait
      obtain ⟨c', hc', hsize⟩ := marked_size hwait.symm
      rw [hc.block] at hc'
      cases hc'
      rw [hsize] at hapart
      exact write_of_apart hold hapart
  · intro p hp hlt hne
    show p ∈ s.newLocation ++ [s.writePtr]
    replace hlt : p < s.writePtr + b.size := hlt
    rcases write_ne_none hne with rfl | ⟨hold, hplace⟩
    · exact mem_append_right _ (mem_singleton_self _)
    · apply mem_append_left
      apply hs.only p hp _ hold
      omega
  · rw [hzip, pairwise_append]
    refine ⟨hs.order, pairwise_singleton _ _, ?_⟩
    intro x hx y hy c hc
    obtain rfl := mem_singleton.mp hy
    obtain ⟨-, -, d, hd, -, hend⟩ := hs.moved x.1 x.2 hx
    rw [hc] at hd
    cases hd
    exact hend

/-- The flag of an object is cleared, in its header or in its monitor, which both wait. -/
theorem Sliding.unflag (hs : Sliding h newHeap pre (t :: rest) (flagged (t :: rest)) s)
    (hobjs : objs = pre ++ t :: rest) (hpar : t % 2 = 0) :
    ∃ w, s.memory.markWord t = some w ∧
      Sliding h newHeap pre (t :: rest) (flagged rest)
        { s with memory := s.memory.setMarkWord t w.unmark } := by
  have horder := hl.order
  rw [hobjs] at horder
  have hsuffix := (pairwise_append.mp horder).2.1
  have ht : t ∈ objs := by simp [hobjs]
  obtain ⟨o, ho⟩ := hlive t (hl.object t ht hpar)
  obtain ⟨w, hw, hflag⟩ := hv.markWord_eq ho
  have haddr : cellAddress t = t := by
    unfold cellAddress
    omega
  have hcells : ∀ a ∈ flagged (t :: rest), ∃ o, h.Cell a (.object o) := by
    rintro a ⟨ha, hpar'⟩
    apply hlive a (hl.object a _ hpar')
    rw [hobjs]
    exact mem_append_right _ ha
  -- the monitor is listed behind its object
  have hmonitor {a : ℕ} (ha : h.memory.monitorOf t = some a) :
      a + 1 ∈ t :: rest ∧ cellAddress (a + 1) = a := by
    obtain ⟨hlt, c, hc⟩ := hv.monitorOf_cell ho ha
    have heven := hv.even hc
    have hmem := hl.monitor_mem t (hl.object t ht hpar) a ha
    rw [hobjs] at hmem
    refine ⟨?_, by unfold cellAddress; omega⟩
    rcases mem_append.mp hmem with hpre | hsuf
    · have hbefore := (pairwise_append.mp horder).2.2 _ hpre t mem_cons_self
      omega
    · exact hsuf
  have hhere : s.memory t = h.memory.marked (flagged (t :: rest)) t := by
    have hwaiting := hs.waiting t mem_cons_self
    rwa [haddr] at hwaiting
  have hof : (h.memory.marked (flagged (t :: rest))).monitorOf t = h.memory.monitorOf t := by
    obtain ⟨o', ho', -, -, -, hsame⟩ := marked_object (v := flagged (t :: rest)) ho.block
    unfold HeapMemory.monitorOf
    rw [ho', ho.block]
    exact hsame
  have hthere : ∀ a, (h.memory.marked (flagged (t :: rest))).monitorOf t = some a →
      s.memory a = h.memory.marked (flagged (t :: rest)) a := by
    intro a ha
    rw [hof] at ha
    obtain ⟨hmem, haddr'⟩ := hmonitor ha
    rw [← haddr']
    exact hs.waiting _ hmem
  have hin : t ∈ flagged (t :: rest) := ⟨mem_cons_self, hpar⟩
  have hout : t ∉ flagged rest := by
    rintro ⟨hmem, -⟩
    exact absurd (rel_of_pairwise_cons hsuffix hmem) (lt_irrefl t)
  have hsame : ∀ q, q ≠ t → (q ∈ flagged rest ↔ q ∈ flagged (t :: rest)) := by
    intro q hq
    show q ∈ rest ∧ _ ↔ q ∈ t :: rest ∧ _
    rw [mem_cons, or_iff_right hq]
  have hword := marked_markWord hv hcells ho hw
  have hset := setMarkWord_marked hv hcells ho hw hsame
  rw [if_pos hin] at hword
  rw [if_neg hout] at hset
  refine ⟨w.mark, (markWord_congr hhere hthere).trans hword, ?_⟩
  rw [MarkWord.unmark_mark hflag]
  refine { hs with moved := ?_, waiting := ?_, only := ?_ }
  · intro t' a hmem
    obtain ⟨hstart, hdvd, c, hc, hnew, hend⟩ := hs.moved t' a hmem
    refine ⟨hstart, hdvd, c, hc, ?_, hend⟩
    have hpos := c.size_pos
    have hlt : a < s.writePtr := by omega
    show s.memory.setMarkWord t w a = some c
    rw [setMarkWord_of_ne w _ _, hnew]
    · rw [← haddr]
      exact hs.ne_waiting hv hlive hl htarget hobjs hstart hlt mem_cons_self
    · intro hmon
      have hmon' : h.memory.monitorOf t = some a := by
        rw [← hof, ← hmon]
        unfold HeapMemory.monitorOf
        rw [hhere]
      obtain ⟨hmem', haddr'⟩ := hmonitor hmon'
      exact hs.ne_waiting hv hlive hl htarget hobjs hstart hlt hmem' haddr'.symm
  · intro t' ht'
    show s.memory.setMarkWord t w _ = _
    rw [setMarkWord_congr hhere hthere w (hs.waiting t' ht'), hset]
  · intro p hp hlt hne
    exact hs.only p hp hlt (setMarkWord_ne_none hne)

omit htarget in
/-- The block that is moved next has lost its flag. -/
theorem Sliding.moves_original (hs : Sliding h newHeap pre (t :: rest) (flagged rest) s)
    (hobjs : objs = pre ++ t :: rest) (hb : h.Cell (cellAddress t) b) :
    s.memory (cellAddress t) = some b := by
  have horder := hl.order
  rw [hobjs] at horder
  have hsuffix := (pairwise_append.mp horder).2.1
  have ht : t ∈ objs := by simp [hobjs]
  rw [hs.waiting t mem_cons_self]
  unfold HeapMemory.marked
  rw [hb.block, Option.map_some]
  congr 1
  rcases hl.cell hv hlive ht with ⟨hpar, haddr, o, ho⟩ | ⟨hpar, haddr, c, hc⟩
  · have hsame := hb.block.symm.trans ho.block
    cases hsame
    have hout : cellAddress t ∉ flagged rest := by
      rw [haddr]
      rintro ⟨hmem, -⟩
      exact absurd (rel_of_pairwise_cons hsuffix hmem) (lt_irrefl t)
    simp only [hout, if_false]
  · have hsame := hb.block.symm.trans hc.block
    cases hsame
    have hnone : ¬ ∃ a ∈ flagged rest, h.memory.monitorOf a = some (cellAddress t) := by
      rintro ⟨a, ⟨hmem, hpar'⟩, ha⟩
      obtain ⟨o, ho⟩ := hlive a (hl.object a (by simp [hobjs, hmem]) hpar')
      obtain ⟨hlt, -⟩ := hv.monitorOf_cell ho ha
      have hbefore := rel_of_pairwise_cons hsuffix hmem
      omega
    simp only [hnone, if_false]

theorem Sliding.copy (hs : Sliding h newHeap pre (t :: rest) (flagged (t :: rest)) s)
    (hobjs : objs = pre ++ t :: rest) :
    ∃ s', s.copy t = some s' ∧ Sliding h newHeap (pre ++ [t]) rest (flagged rest) s' := by
  have ht : t ∈ objs := by simp [hobjs]
  unfold SlideState.copy
  rw [alignUp_of_dvd (by decide) hs.aligned]
  rcases hl.cell hv hlive ht with ⟨hpar, haddr, o, ho⟩ | ⟨hpar, haddr, c, hc⟩
  · obtain ⟨w, hw, hclear⟩ := hs.unflag hv hlive hl htarget hobjs hpar
    have hblock : s.memory.setMarkWord t w.unmark t = some (.object o) := by
      have horiginal := hclear.moves_original hv hlive hl hobjs ho
      rwa [haddr] at horiginal
    refine ⟨_, ?_, hclear.move hv hlive hl htarget hobjs ho⟩
    rw [if_neg (by omega)]
    simp only [hw, Option.bind_some, hblock]
  · have hsame : flagged (t :: rest) = flagged rest := by
      ext x
      show x ∈ t :: rest ∧ _ ↔ x ∈ rest ∧ _
      rw [mem_cons]
      constructor
      · rintro ⟨rfl | hmem, hx⟩
        · omega
        · exact ⟨hmem, hx⟩
      · rintro ⟨hmem, hx⟩
        exact ⟨.inr hmem, hx⟩
    rw [hsame] at hs
    have hblock := hs.moves_original hv hlive hl hobjs hc
    rw [haddr] at hblock
    refine ⟨_, ?_, hs.move hv hlive hl htarget hobjs hc⟩
    rw [if_pos hpar]
    simp only [hblock]

theorem Sliding.copyAll {suf : List ℕ} (hs : Sliding h newHeap pre suf (flagged suf) s)
    (hobjs : objs = pre ++ suf) :
    ∃ s', s.copyAll suf = some s' ∧ Sliding h newHeap objs [] ∅ s' := by
  induction suf generalizing pre s with
  | nil =>
    rw [append_nil] at hobjs
    have hempty : flagged [] = ∅ := by
      ext x
      simp [flagged]
    rw [hempty, ← hobjs] at hs
    exact ⟨s, rfl, hs⟩
  | cons t rest ih =>
    obtain ⟨s₁, hs₁, hnext⟩ := hs.copy hv hlive hl htarget hobjs
    obtain ⟨s', hs', hend⟩ := ih hnext (by rw [hobjs, append_assoc]; rfl)
    refine ⟨s', ?_, hend⟩
    rw [SlideState.copyAll, hs₁]
    exact hs'

/-- The loop copies all blocks, without a flag, in the order of their addresses. -/
theorem copyAll_spec (hmemory : s.memory = h.memory.marked {x | x ∈ live})
    (hptr : s.writePtr = newHeap) (hloc : s.newLocation = []) :
    ∃ s', s.copyAll objs = some s' ∧ Sliding h newHeap objs [] ∅ s' := by
  have hflagged : flagged objs = {x | x ∈ live} := by
    ext x
    constructor
    · rintro ⟨hx, hpar⟩
      exact hl.object x hx hpar
    · intro hx
      obtain ⟨o, ho⟩ := hlive x hx
      exact ⟨hl.object_mem x hx, hv.even ho⟩
  have hstart : Sliding h newHeap [] objs (flagged objs) s := by
    refine ⟨?_, ?_, ?_, ?_, ?_, ?_, ?_, ?_, ?_⟩
    · rw [hptr]
      exact htarget.aligned
    · rw [hptr]
    · intro t ht
      obtain ⟨b, hb⟩ := hl.block hv hlive ht
      have habove := hb.above
      omega
    · omega
    · rw [hloc]
    · intro t a hmem
      exact absurd hmem not_mem_nil
    · intro t _
      rw [hmemory, hflagged]
    · intro p hp hlt
      omega
    · exact List.Pairwise.nil
  exact hstart.copyAll hv hlive hl htarget rfl

end Slide

end TraceJvm
