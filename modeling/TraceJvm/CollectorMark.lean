import Mathlib.Order.Interval.Finset.Nat
import TraceJvm.CollectorHeap
import TraceJvm.Lib.Worklist

/-! The mark phase flags and lists the objects that are reachable without passing through the
referent of a `Reference`. -/
namespace TraceJvm

open Worklist List

/-! ### Well-formed heaps -/

namespace HeapMemory

def monitorOf (m : HeapMemory) (p : ℕ) : Option ℕ :=
  match m p with
  | some (.object o) => o.header.monitor
  | _ => none

end HeapMemory

def HeapBlock.Unflagged : HeapBlock → Prop
  | .object o => ∀ w, o.header = .mark w → w.flags &&& reachableFlag = 0
  | .monitor c => c.markWord.flags &&& reachableFlag = 0

namespace GcHeap

structure Cell (h : GcHeap) (p : ℕ) (b : HeapBlock) : Prop where
  block : h.memory p = some b
  above : h.base ≤ p
  below : p < h.base + h.used

def Pointer (h : GcHeap) (p : ℕ) : Prop := p ≠ 0 ∧ h.InHeap p

/-- The invariant of the heap between collections. A monitor is allocated after its object. -/
structure Valid (h : GcHeap) : Prop where
  base_pos : 0 < h.base
  base_aligned : 8 ∣ h.base
  used_le : h.used ≤ h.capacity
  used_aligned : 8 ∣ h.used
  aligned : ∀ p b, h.Cell p b → 8 ∣ p
  inside : ∀ p b, h.Cell p b → p + b.size ≤ h.base + h.used
  disjoint : ∀ p b q c, h.Cell p b → h.Cell q c → p < q → p + b.size ≤ q
  monitors : ∀ p o a, h.Cell p (.object o) → o.header = .expanded a →
    p < a ∧ ∃ c, h.Cell a (.monitor c)
  owner : ∀ p q a, h.memory.monitorOf p = some a → h.memory.monitorOf q = some a →
    (∃ b, h.Cell p b) → (∃ b, h.Cell q b) → p = q
  unflagged : ∀ p b, h.Cell p b → b.Unflagged
  fields : ∀ p o s, h.Cell p (.object o) → s ∈ o.strongSlots → h.Pointer (o.contents s) →
    ∃ o', h.Cell (o.contents s) (.object o')
  referents : ∀ p o, h.Cell p (.object o) → o.descriptor.isReference = true →
    h.Pointer (o.contents referentSlot) → ∃ o', h.Cell (o.contents referentSlot) (.object o')
  roots : ∀ p ∈ h.pending :: h.roots, h.Pointer p → ∃ o, h.Cell p (.object o)

/-- A strong field of the object at `a`, or an element of the array, points to the object at `b`. -/
def Edge (h : GcHeap) (a b : ℕ) : Prop :=
  ∃ o, h.Cell a (.object o) ∧ ∃ s ∈ o.strongSlots, o.contents s = b ∧ h.Pointer b

def Root (h : GcHeap) (p : ℕ) : Prop := p ∈ h.pending :: h.roots ∧ h.Pointer p

/-- The object at the address is reachable on a path that does not go through a referent. -/
def Live (h : GcHeap) (p : ℕ) : Prop := Found h.Edge h.Root p

end GcHeap

/-! ### Flags -/

theorem MarkWord.flag_or (f : UInt32) : (f ||| reachableFlag) &&& reachableFlag ≠ 0 := by
  intro h
  have hbits := congrArg (fun x : UInt32 => x.toBitVec.getLsbD 1) h
  simp [reachableFlag] at hbits

theorem MarkWord.flag_cancel {f : UInt32} (h : f &&& reachableFlag = 0) :
    (f ||| reachableFlag) &&& ~~~reachableFlag = f := by
  apply UInt32.toBitVec_inj.mp
  apply BitVec.eq_of_getLsbD_eq
  intro i hi
  have hbit := congrArg (fun x : UInt32 => x.toBitVec.getLsbD i) h
  simp only [UInt32.toBitVec_and, BitVec.getLsbD_and] at hbit
  simp only [UInt32.toBitVec_and, UInt32.toBitVec_or, UInt32.toBitVec_not, BitVec.getLsbD_and,
    BitVec.getLsbD_or, BitVec.getLsbD_not, hi, decide_true, Bool.true_and]
  revert hbit
  cases f.toBitVec.getLsbD i <;> cases reachableFlag.toBitVec.getLsbD i <;> simp

namespace MarkWord

variable {w : MarkWord}

theorem reachable_mark (w : MarkWord) : w.mark.reachable = true :=
  decide_eq_true (flag_or w.flags)

theorem not_reachable (h : w.flags &&& reachableFlag = 0) : w.reachable = false :=
  decide_eq_false (not_not_intro h)

theorem mark_mark (w : MarkWord) : w.mark.mark = w.mark := by
  unfold mark
  congr 1
  apply UInt32.toBitVec_inj.mp
  rw [UInt32.toBitVec_or, UInt32.toBitVec_or, BitVec.or_assoc, BitVec.or_self]

theorem unmark_mark (h : w.flags &&& reachableFlag = 0) : w.mark.unmark = w := by
  unfold mark unmark
  rw [flag_cancel h]

end MarkWord

/-! ### Memory with flags -/

def HeapObject.mark (o : HeapObject) : HeapObject :=
  match o.header with
  | .mark w => { o with header := .mark w.mark }
  | .expanded _ => o

def HeapMonitor.mark (c : HeapMonitor) : HeapMonitor := { c with markWord := c.markWord.mark }

open Classical in
noncomputable def HeapMemory.marked (m : HeapMemory) (v : Set ℕ) : HeapMemory := fun p =>
  (m p).map fun
    | .object o => .object (if p ∈ v then o.mark else o)
    | .monitor c => .monitor (if ∃ a ∈ v, m.monitorOf a = some p then c.mark else c)

namespace HeapObject

variable (o : HeapObject)

@[simp] theorem mark_descriptor : o.mark.descriptor = o.descriptor := by
  unfold mark
  split <;> rfl

@[simp] theorem mark_contents : o.mark.contents = o.contents := by
  unfold mark
  split <;> rfl

@[simp] theorem mark_length : o.mark.length = o.length := by
  unfold mark
  split <;> rfl

@[simp] theorem mark_strongSlots : o.mark.strongSlots = o.strongSlots := by
  unfold strongSlots
  rw [mark_descriptor, mark_length]

@[simp] theorem mark_monitor : o.mark.header.monitor = o.header.monitor := by
  unfold mark
  split
  · rename_i w hw
    rw [hw]
    rfl
  · rfl

end HeapObject

namespace HeapMemory

variable {m : HeapMemory} {v : Set ℕ} {p : ℕ}

theorem marked_empty (m : HeapMemory) : m.marked ∅ = m := by
  funext p
  unfold marked
  cases m p with
  | none => rfl
  | some b => cases b <;> simp

theorem marked_object {o : HeapObject} (h : m p = some (.object o)) :
    ∃ o', m.marked v p = some (.object o') ∧ o'.descriptor = o.descriptor ∧
      o'.contents = o.contents ∧ o'.strongSlots = o.strongSlots ∧
      o'.header.monitor = o.header.monitor := by
  classical
  unfold marked
  rw [h]
  by_cases hp : p ∈ v
  · exact ⟨o.mark, by simp [hp], by simp, by simp, by simp, by simp⟩
  · exact ⟨o, by simp [hp], rfl, rfl, rfl, rfl⟩

end HeapMemory

namespace GcHeap.Valid

variable {h : GcHeap} {p : ℕ} {o : HeapObject}

theorem markWord_eq (hv : h.Valid) (hp : h.Cell p (.object o)) :
    ∃ w, h.memory.markWord p = some w ∧ w.flags &&& reachableFlag = 0 := by
  unfold HeapMemory.markWord
  simp only [hp.block]
  cases hheader : o.header with
  | mark w => exact ⟨w, rfl, hv.unflagged p _ hp w hheader⟩
  | expanded a =>
    obtain ⟨-, c, hc⟩ := hv.monitors p o a hp hheader
    simp only [hc.block]
    exact ⟨c.markWord, rfl, hv.unflagged a _ hc⟩

theorem owner_eq (hv : h.Valid) (hp : h.Cell p (.object o)) {q a : ℕ} {o' : HeapObject}
    (ho : o.header = .expanded a) (hq : h.Cell q (.object o'))
    (hmonitor : h.memory.monitorOf q = some a) : q = p := by
  apply hv.owner q p a hmonitor _ ⟨_, hq⟩ ⟨_, hp⟩
  unfold HeapMemory.monitorOf
  simp only [hp.block, ho]
  rfl

end GcHeap.Valid

section Marked

variable {h : GcHeap} (hv : h.Valid) {v : Set ℕ} (hcells : ∀ a ∈ v, ∃ o, h.Cell a (.object o))
  {p : ℕ} {o : HeapObject} {w : MarkWord}

include hv hcells

open Classical in
theorem marked_markWord (hp : h.Cell p (.object o)) (hw : h.memory.markWord p = some w) :
    (h.memory.marked v).markWord p = some (if p ∈ v then w.mark else w) := by
  unfold HeapMemory.markWord HeapMemory.marked at *
  simp only [hp.block, Option.map_some] at hw ⊢
  cases hheader : o.header with
  | mark w' =>
    simp only [hheader, Option.some.injEq] at hw
    rw [hw] at hheader
    by_cases hmem : p ∈ v
    · simp [hmem, HeapObject.mark, hheader]
    · simp [hmem, hheader]
  | expanded a =>
    obtain ⟨-, c, hc⟩ := hv.monitors p o a hp hheader
    simp only [hheader, hc.block, Option.some.injEq] at hw
    have howner : (∃ b ∈ v, h.memory.monitorOf b = some a) ↔ p ∈ v := by
      constructor
      · rintro ⟨b, hb, hmonitor⟩
        obtain ⟨o', ho'⟩ := hcells b hb
        rwa [← hv.owner_eq hp hheader ho' hmonitor]
      · intro hmem
        refine ⟨p, hmem, ?_⟩
        simp only [HeapMemory.monitorOf, hp.block, hheader]
        rfl
    have hsame : (if p ∈ v then o.mark else o).header = .expanded a := by
      by_cases hmem : p ∈ v <;> simp [hmem, HeapObject.mark, hheader]
    simp only [hsame, hc.block, Option.map_some, howner]
    by_cases hmem : p ∈ v
    · simp [hmem, HeapMonitor.mark, hw]
    · simp [hmem, hw]

open Classical in
/-- Writing the mark word of one object changes its flag only. -/
theorem setMarkWord_marked (hp : h.Cell p (.object o)) (hw : h.memory.markWord p = some w)
    {v' : Set ℕ} (hsame : ∀ q, q ≠ p → (q ∈ v' ↔ q ∈ v)) :
    (h.memory.marked v).setMarkWord p (if p ∈ v' then w.mark else w) = h.memory.marked v' := by
  have hobjects {q : ℕ} (hq : q ≠ p) (x y : HeapObject) :
      (if q ∈ v then x else y) = if q ∈ v' then x else y := by
    simp only [hsame q hq]
  cases hheader : o.header with
  | mark w' =>
    have hw' : w' = w := by
      simpa [HeapMemory.markWord, hp.block, hheader] using hw
    rw [hw'] at hheader
    have hmonitors (q : ℕ) : (∃ b ∈ v, h.memory.monitorOf b = some q) ↔
        ∃ b ∈ v', h.memory.monitorOf b = some q := by
      apply exists_congr
      intro b
      by_cases hb : b = p
      · simp [hb, HeapMemory.monitorOf, hp.block, hheader, ObjectHeader.monitor]
      · simp [hsame b hb]
    have hset : (h.memory.marked v).setMarkWord p (if p ∈ v' then w.mark else w) =
        Function.update (h.memory.marked v) p
          (some (.object { o with header := .mark (if p ∈ v' then w.mark else w) })) := by
      unfold HeapMemory.setMarkWord
      by_cases hmem : p ∈ v
      · simp [HeapMemory.marked, hp.block, hmem, HeapObject.mark, hheader]
      · simp [HeapMemory.marked, hp.block, hmem, hheader]
    rw [hset]
    funext q
    by_cases hq : q = p
    · rw [hq, Function.update_self]
      by_cases hmem : p ∈ v'
      · simp [HeapMemory.marked, hp.block, hmem, HeapObject.mark, hheader]
      · simp [HeapMemory.marked, hp.block, hmem, ← hheader]
    · rw [Function.update_of_ne hq]
      unfold HeapMemory.marked
      simp only [hmonitors, hobjects hq]
  | expanded a =>
    obtain ⟨-, c, hc⟩ := hv.monitors p o a hp hheader
    have hcw : c.markWord = w := by
      simpa [HeapMemory.markWord, hp.block, hheader, hc.block] using hw
    have hmonitor : h.memory.monitorOf p = some a := by
      simp only [HeapMemory.monitorOf, hp.block, hheader]
      rfl
    have howner : (∃ b ∈ v', h.memory.monitorOf b = some a) ↔ p ∈ v' := by
      constructor
      · rintro ⟨b, hb, hb'⟩
        by_cases hbp : b = p
        · rwa [← hbp]
        · obtain ⟨o', ho'⟩ := hcells b ((hsame b hbp).mp hb)
          exact absurd (hv.owner_eq hp hheader ho' hb') hbp
      · intro hmem
        exact ⟨p, hmem, hmonitor⟩
    have hmark : o.mark = o := by
      unfold HeapObject.mark
      rw [hheader]
    have hset : (h.memory.marked v).setMarkWord p (if p ∈ v' then w.mark else w) =
        Function.update (h.memory.marked v) a
          (some (.monitor { c with markWord := if p ∈ v' then w.mark else w })) := by
      unfold HeapMemory.setMarkWord
      simp only [HeapMemory.marked, hp.block, Option.map_some, hmark, ite_self, hheader, hc.block]
      by_cases hmem : ∃ b ∈ v, h.memory.monitorOf b = some a
      · simp only [hmem, if_true, HeapMonitor.mark]
      · simp only [hmem, if_false]
    rw [hset]
    funext q
    by_cases hq : q = a
    · rw [hq, Function.update_self]
      simp only [HeapMemory.marked, hc.block, Option.map_some, howner]
      by_cases hmem : p ∈ v'
      · simp [hmem, HeapMonitor.mark, ← hcw]
      · simp [hmem, ← hcw]
    · rw [Function.update_of_ne hq]
      have hmonitors : (∃ b ∈ v, h.memory.monitorOf b = some q) ↔
          ∃ b ∈ v', h.memory.monitorOf b = some q := by
        apply exists_congr
        intro b
        by_cases hb : b = p
        · simp [hb, hmonitor, Ne.symm hq]
        · simp [hsame b hb]
      unfold HeapMemory.marked
      by_cases hqp : q = p
      · simp only [hqp, hp.block, Option.map_some, hmark, ite_self]
      · simp only [hmonitors, hobjects hqp]

end Marked

/-! ### Visiting pointers -/

/-- The objects of `done` have been popped; these and the ones of the worklist are flagged. -/
structure Marking (h : GcHeap) (done : List ℕ) (s : MarkState) : Prop where
  memory : s.memory = h.memory.marked {x | x ∈ done ++ s.worklist}
  nodup : (done ++ s.worklist).Nodup
  cells : ∀ x ∈ done ++ s.worklist, ∃ o, h.Cell x (.object o)

structure Visits (h : GcHeap) (done ps : List ℕ) (s s' : MarkState) : Prop where
  marking : Marking h done s'
  objs : s'.objs = s.objs
  keeps : ∀ x ∈ s.worklist, x ∈ s'.worklist
  only : ∀ x ∈ s'.worklist, x ∈ s.worklist ∨ x ∈ ps ∧ h.Pointer x
  all : ∀ x ∈ ps, h.Pointer x → x ∈ done ++ s'.worklist

section Visit

variable {h : GcHeap} {done ps : List ℕ} {s : MarkState} {p : ℕ}

theorem pointer_iff : ¬ (p = 0 ∨ ¬ h.InHeap p) ↔ h.Pointer p := by
  unfold GcHeap.Pointer
  rw [not_or, not_not]

/-- A flagged object is in one of the two lists, so the visit adds an object only once. -/
theorem visitPointer_spec (hv : h.Valid) (hm : Marking h done s)
    (hp : h.Pointer p → ∃ o, h.Cell p (.object o)) :
    ∃ s', h.visitPointer s p = some s' ∧ Visits h done [p] s s' := by
  by_cases hptr : h.Pointer p
  · obtain ⟨o, ho⟩ := hp hptr
    obtain ⟨w, hw, hflag⟩ := hv.markWord_eq ho
    have hword : (h.memory.marked {x | x ∈ done ++ s.worklist}).markWord p =
        some (if p ∈ done ++ s.worklist then w.mark else w) := by
      rw [marked_markWord (v := {x | x ∈ done ++ s.worklist}) hv hm.cells ho hw]
      by_cases hmem : p ∈ done ++ s.worklist
      · rw [if_pos hmem, if_pos (show p ∈ {x | x ∈ done ++ s.worklist} from hmem)]
      · rw [if_neg hmem, if_neg (show p ∉ {x | x ∈ done ++ s.worklist} from hmem)]
    unfold GcHeap.visitPointer
    rw [if_neg (pointer_iff.mpr hptr), hm.memory, hword]
    by_cases hmem : p ∈ done ++ s.worklist
    · refine ⟨s, ?_, hm, rfl, fun _ hx => hx, fun _ hx => .inl hx, ?_⟩
      · simp only [hmem, if_true, Option.map_some, MarkWord.reachable_mark]
      · intro x hx _
        rw [mem_singleton.mp hx]
        exact hmem
    · have hnew : ∀ x, x ∈ done ++ p :: s.worklist ↔ x = p ∨ x ∈ done ++ s.worklist := by
        intro x
        simp only [mem_append, mem_cons]
        tauto
      have hsame : ∀ q, q ≠ p →
          (q ∈ {x | x ∈ done ++ p :: s.worklist} ↔ q ∈ {x | x ∈ done ++ s.worklist}) := by
        intro q hq
        simp only [Set.mem_ofPred_eq, hnew, hq, false_or]
      have hset := setMarkWord_marked (v := {x | x ∈ done ++ s.worklist}) hv hm.cells ho hw hsame
      rw [if_pos (show p ∈ {x | x ∈ done ++ p :: s.worklist} by simp)] at hset
      refine ⟨{ s with
        memory := h.memory.marked {x | x ∈ done ++ p :: s.worklist}
        worklist := p :: s.worklist }, ?_, ⟨rfl, ?_, ?_⟩, rfl, ?_, ?_, ?_⟩
      · simp only [hmem, if_false, Option.map_some, MarkWord.not_reachable hflag,
          Bool.false_eq_true, hset]
      · exact nodup_middle.mpr (nodup_cons.mpr ⟨hmem, hm.nodup⟩)
      · intro x hx
        rcases (hnew x).mp hx with rfl | hx
        · exact ⟨o, ho⟩
        · exact hm.cells x hx
      · exact fun x hx => mem_cons_of_mem _ hx
      · intro x hx
        rcases mem_cons.mp hx with rfl | hx
        · exact .inr ⟨mem_singleton_self x, hptr⟩
        · exact .inl hx
      · intro x hx _
        rw [mem_singleton.mp hx]
        simp
  · refine ⟨s, ?_, hm, rfl, fun _ hx => hx, fun _ hx => .inl hx, ?_⟩
    · unfold GcHeap.visitPointer
      rw [if_pos (not_not.mp (pointer_iff.not.mpr hptr))]
    · intro x hx hptr'
      rw [mem_singleton.mp hx] at hptr'
      exact absurd hptr' hptr

theorem visitPointers_spec (hv : h.Valid) (hm : Marking h done s)
    (hps : ∀ p ∈ ps, h.Pointer p → ∃ o, h.Cell p (.object o)) :
    ∃ s', h.visitPointers s ps = some s' ∧ Visits h done ps s s' := by
  induction ps generalizing s with
  | nil =>
    exact ⟨s, rfl, hm, rfl, fun _ hx => hx, fun _ hx => .inl hx,
      fun _ hx => absurd hx not_mem_nil⟩
  | cons p ps ih =>
    rw [forall_mem_cons] at hps
    obtain ⟨s₁, hs₁, hfirst⟩ := visitPointer_spec hv hm hps.1
    obtain ⟨s₂, hs₂, hrest⟩ := ih hfirst.marking hps.2
    refine ⟨s₂, ?_, hrest.marking, hrest.objs.trans hfirst.objs, ?_, ?_, ?_⟩
    · rw [GcHeap.visitPointers, hs₁]
      exact hs₂
    · exact fun x hx => hrest.keeps x (hfirst.keeps x hx)
    · intro x hx
      rcases hrest.only x hx with hx | ⟨hx, hptr⟩
      · rcases hfirst.only x hx with hx | ⟨hx, hptr⟩
        · exact .inl hx
        · exact .inr ⟨mem_cons.mpr (.inl (mem_singleton.mp hx)), hptr⟩
      · exact .inr ⟨mem_cons_of_mem _ hx, hptr⟩
    · intro x hx hptr
      rcases mem_cons.mp hx with rfl | hx
      · have hin := hfirst.all x (mem_singleton_self x) hptr
        rcases mem_append.mp hin with hin | hin
        · exact mem_append_left _ hin
        · exact mem_append_right _ (hrest.keeps x hin)
      · exact hrest.all x hx hptr

end Visit

/-! ### The loop -/

/-- The entries of `objs` for an object. -/
def HeapMemory.entries (m : HeapMemory) (p : ℕ) : List ℕ :=
  match m.monitorOf p with
  | none => [p]
  | some a => [p, a + 1]

/-- The state of the loop: the search, the flags, and the objects that have been listed. -/
structure Looping (h : GcHeap) (done : List ℕ) (s : MarkState) : Prop where
  marking : Marking h done s
  search : Search h.Edge h.Root done s.worklist
  objs : s.objs = done.reverse.flatMap h.memory.entries

section Loop

variable {h : GcHeap} {done : List ℕ} {s : MarkState}

theorem pop_memory (hv : h.Valid) (hm : Marking h done s) {obj : ℕ} {rest : List ℕ}
    (hwork : s.worklist = obj :: rest) :
    ∃ w, s.memory.markWord obj = some w ∧ s.memory.setMarkWord obj w.mark = s.memory := by
  have hmem : obj ∈ done ++ s.worklist := by simp [hwork]
  obtain ⟨o, ho⟩ := hm.cells obj hmem
  obtain ⟨w, hw, -⟩ := hv.markWord_eq ho
  have hword := marked_markWord (v := {x | x ∈ done ++ s.worklist}) hv hm.cells ho hw
  have hset := setMarkWord_marked (v := {x | x ∈ done ++ s.worklist}) hv hm.cells ho hw
    (fun _ _ => Iff.rfl)
  rw [if_pos (show obj ∈ {x | x ∈ done ++ s.worklist} from hmem)] at hword hset
  rw [← hm.memory] at hword hset
  exact ⟨w.mark, hword, by rw [MarkWord.mark_mark, hset]⟩

theorem markReachable_spec (hv : h.Valid) {obj : ℕ} {rest : List ℕ} (hs : Looping h done s)
    (hwork : s.worklist = obj :: rest) :
    ∃ s', h.markReachable { s with worklist := rest } obj = some s' ∧
      Looping h (obj :: done) s' := by
  have hm := hs.marking
  obtain ⟨o, ho⟩ := hm.cells obj (by simp [hwork])
  obtain ⟨o', ho', -, hcontents, hslots, hmonitor⟩ :=
    HeapMemory.marked_object (v := {x | x ∈ done ++ s.worklist}) ho.block
  rw [← hm.memory] at ho'
  have hmem : ∀ x, x ∈ obj :: done ++ rest ↔ x ∈ done ++ s.worklist := by
    intro x
    rw [hwork]
    simp only [mem_append, mem_cons]
    tauto
  have hstart : Marking h (obj :: done)
      { memory := s.memory, objs := s.objs ++ h.memory.entries obj, worklist := rest } := by
    refine ⟨?_, ?_, ?_⟩
    · rw [hm.memory]
      congr 1
      ext x
      exact (hmem x).symm
    · have hnodup := hm.nodup
      rw [hwork] at hnodup
      exact nodup_middle.mp hnodup
    · intro x hx
      exact hm.cells x ((hmem x).mp hx)
  have hpointers : ∀ p ∈ o.strongSlots.map o.contents, h.Pointer p →
      ∃ o', h.Cell p (.object o') := by
    intro p hp hptr
    obtain ⟨i, hi, rfl⟩ := mem_map.mp hp
    exact hv.fields obj o i ho hi hptr
  obtain ⟨s', hs', hvisits⟩ := visitPointers_spec hv hstart hpointers
  have hof : h.memory.monitorOf obj = o'.header.monitor := by
    rw [hmonitor]
    simp only [HeapMemory.monitorOf, ho.block]
  refine ⟨s', ?_, hvisits.marking, ?_, ?_⟩
  · unfold GcHeap.markReachable
    simp only [ho', hslots, hcontents]
    simp only [HeapMemory.entries, hof] at hs'
    cases hheader : o'.header with
    | mark w | expanded a => simpa only [hheader, ObjectHeader.monitor] using hs'
  · have hsearch := hs.search
    rw [hwork] at hsearch
    apply hsearch.visit hvisits.marking.nodup hvisits.keeps
    · intro b hb
      rcases hvisits.only b hb with hb | ⟨hb, hptr⟩
      · exact .inl hb
      · obtain ⟨i, hi, rfl⟩ := mem_map.mp hb
        exact .inr ⟨o, ho, i, hi, rfl, hptr⟩
    · rintro b ⟨o₁, ho₁, i, hi, rfl, hptr⟩
      have hsame := ho.block.symm.trans ho₁.block
      cases hsame
      exact hvisits.all _ (mem_map_of_mem hi) hptr
  · rw [hvisits.objs, hs.objs, reverse_cons, flatMap_append, flatMap_singleton]

theorem looping_length (hs : Looping h done s) :
    done.length + s.worklist.length ≤ h.capacity := by
  have hcard := hs.search.length_le (Finset.Ico h.base (h.base + h.capacity)) (by
    rintro a ⟨r, hr, hpath⟩
    rw [Finset.mem_Ico]
    cases hpath with
    | refl => exact hr.2.2
    | tail _ hedge =>
      obtain ⟨-, -, -, -, -, hptr⟩ := hedge
      exact hptr.2)
  rw [Nat.card_Ico] at hcard
  omega

theorem markLoop_spec (hv : h.Valid) {n : ℕ} (hs : Looping h done s)
    (hn : h.capacity ≤ n + done.length) :
    ∃ done' s', h.markLoop n s = some s' ∧ s'.worklist = [] ∧ Looping h done' s' := by
  induction n generalizing done s with
  | zero =>
    have hlen := looping_length hs
    have hempty : s.worklist = [] := length_eq_zero_iff.mp (by omega)
    refine ⟨done, s, ?_, hempty, hs⟩
    rw [GcHeap.markLoop, if_pos hempty]
  | succ n ih =>
    cases hwork : s.worklist with
    | nil =>
      refine ⟨done, s, ?_, hwork, hs⟩
      rw [GcHeap.markLoop]
      simp only [hwork]
    | cons obj rest =>
      obtain ⟨w, hw, hset⟩ := pop_memory hv hs.marking hwork
      obtain ⟨s₁, hs₁, hloop⟩ := markReachable_spec hv hs hwork
      obtain ⟨done', s', hs', hend, hlooping⟩ := ih hloop (by rw [length_cons]; omega)
      refine ⟨done', s', ?_, hend, hlooping⟩
      rw [GcHeap.markLoop]
      simp only [hwork, hw, Option.bind_some, hset, hs₁, hs']

end Loop

/-- What the mark phase leaves: the reachable objects are flagged and listed with their monitors. -/
theorem markPhase_spec {h : GcHeap} (hv : h.Valid) :
    ∃ (s : MarkState) (live : List ℕ), h.markPhase = some s ∧
      (∀ p, p ∈ live ↔ h.Live p) ∧ live.Nodup ∧ (∀ p ∈ live, ∃ o, h.Cell p (.object o)) ∧
      s.memory = h.memory.marked {x | x ∈ live} ∧
      s.objs = live.reverse.flatMap h.memory.entries := by
  have hstart : Marking h [] ⟨h.memory, [], []⟩ := by
    refine ⟨?_, nodup_nil, fun _ hx => absurd hx not_mem_nil⟩
    have hempty : {x | x ∈ ([] : List ℕ) ++ []} = (∅ : Set ℕ) := by
      ext x
      simp
    rw [hempty, HeapMemory.marked_empty]
  obtain ⟨s, hs, hvisits⟩ := visitPointers_spec hv hstart hv.roots
  have hlooping : Looping h [] s := by
    refine ⟨hvisits.marking, ?_, hvisits.objs⟩
    apply Search.start hvisits.marking.nodup
    intro p
    constructor
    · intro hp
      rcases hvisits.only p hp with hp | hp
      · exact absurd hp not_mem_nil
      · exact hp
    · rintro ⟨hp, hptr⟩
      simpa using hvisits.all p hp hptr
  obtain ⟨live, s', hs', hend, hl⟩ := markLoop_spec hv hlooping (Nat.le_add_right _ _)
  have hsearch := hl.search
  have hm := hl.marking
  rw [hend] at hsearch
  have hmemory := hm.memory
  have hcells := hm.cells
  have hnodup := hm.nodup
  rw [hend, append_nil] at hcells hnodup hmemory
  refine ⟨s', live, ?_, fun p => hsearch.complete, hnodup, hcells, hmemory, hl.objs⟩
  rw [GcHeap.markPhase, hs]
  exact hs'

end TraceJvm
