import TraceJvm.CollectorSlide

/-! The relocation phase rewrites the roots, the fields and the headers to the new places, and
links the references that it clears into the pending list. -/
namespace TraceJvm

open List

/-! ### One object -/

namespace HeapObject

variable (r : Relocation) (o : HeapObject)

/-- The referent of a `Reference` has no new place. -/
def clears : Bool :=
  o.descriptor.isReference && !(r.object (o.contents referentSlot)).2

def enqueues : Bool := o.clears r && o.contents discoveredSlot = 0

/-- The object after the relocation phase, which found the pending list at `pending`. -/
def image (pending : ℕ) : HeapObject :=
  { o with
    header := (o.header.relocate r).getD o.header
    contents := fun s =>
      if o.descriptor.isReference && s = referentSlot then
        if o.clears r then 0 else (r.object (o.contents s)).1
      else if o.enqueues r && s = discoveredSlot then pending
      else if s ∈ o.strongSlots then (r.object (o.contents s)).1
      else o.contents s }

theorem strongSlots_nodup : o.strongSlots.Nodup := by
  unfold strongSlots
  split
  · split
    · exact o.descriptor.references.sublist (drop_sublist _ _)
    · exact o.descriptor.references
  · exact nodup_range
  · split
    · exact nodup_range
    · exact nodup_nil

theorem reference_slots (h : o.descriptor.isReference = true) :
    o.descriptor.instanceReferences.headD 0 = referentSlot ∧ discoveredSlot ∈ o.strongSlots ∧
      referentSlot ∉ o.strongSlots := by
  obtain ⟨hkind, rest, hrest⟩ := o.descriptor.layout h
  have hnodup := o.descriptor.references
  unfold strongSlots
  rw [hkind]
  simp only [h, if_true]
  rw [← hrest] at hnodup ⊢
  refine ⟨rfl, by simp [discoveredSlot], ?_⟩
  simp only [cons_append, drop_succ_cons, drop_zero]
  exact (nodup_cons.mp hnodup).1

theorem foldl_set (f : ℕ → ℕ) {l : List ℕ} (hl : l.Nodup) :
    l.foldl (fun o s => o.set s (f (o.contents s))) o =
      { o with contents := fun s => if s ∈ l then f (o.contents s) else o.contents s } := by
  induction l generalizing o with
  | nil => simp
  | cons i l ih =>
    obtain ⟨hi, hl⟩ := nodup_cons.mp hl
    rw [foldl_cons, ih _ hl]
    simp only [set, HeapObject.mk.injEq, true_and]
    funext s
    by_cases hs : s = i
    · subst hs
      simp [hi]
    · simp [hs]

theorem relocateStrong_eq :
    o.relocateStrong r = { o with contents := fun s =>
      if s ∈ o.strongSlots then (r.object (o.contents s)).1 else o.contents s } :=
  foldl_set o (fun p => (r.object p).1) o.strongSlots_nodup

end HeapObject

def Relocation.Positive (r : Relocation) : Prop := ∀ p a, OrderedMap.get r p = some a → a ≠ 0

theorem Relocation.object_eq_zero {r : Relocation} (hr : r.Positive) {p : ℕ} :
    (r.object p).1 = 0 ↔ p = 0 := by
  unfold Relocation.object
  by_cases hp : p = 0
  · simp [hp]
  · rw [if_neg hp]
    cases hget : OrderedMap.get r p with
    | none => exact Iff.rfl
    | some a => exact iff_of_false (hr p a hget) hp

namespace HeapObject

variable {r : Relocation} {o : HeapObject}

theorem discoveredSlot_ne : discoveredSlot ≠ referentSlot := by decide

/-- The referent is looked up as it was, since it is no strong slot. -/
theorem relocateReferent_eq (hr : r.Positive) (href : o.descriptor.isReference = true)
    {header : ObjectHeader} (hheader : o.header.relocate r = some header)
    (address pending : ℕ) :
    ({ o with header := header }.relocateStrong r).relocateReferent r address pending =
      (o.image r pending, if o.enqueues r then address else pending) := by
  obtain ⟨hhead, hstrong, hweak⟩ := o.reference_slots href
  rw [relocateStrong_eq]
  have hslots : { o with header := header }.strongSlots = o.strongSlots := rfl
  unfold relocateReferent
  simp only [hslots, hhead, hweak, if_false]
  by_cases hfound : (r.object (o.contents referentSlot)).2 = true
  · have hclears : o.clears r = false := by simp [clears, hfound]
    have henqueues : o.enqueues r = false := by simp [enqueues, hclears]
    simp only [hfound, if_true, henqueues, Bool.false_eq_true, if_false, Prod.mk.injEq, and_true]
    unfold image set
    rw [hheader, Option.getD_some]
    congr 1
    funext s
    by_cases hs : s = referentSlot
    · simp [hs, href, hclears]
    · simp [hs, henqueues]
  · have hclears : o.clears r = true := by simp [clears, href, hfound]
    have hzero : (r.object (o.contents discoveredSlot)).1 = 0 ↔ o.contents discoveredSlot = 0 :=
      r.object_eq_zero hr
    simp only [hfound, Bool.false_eq_true, if_false, set, Function.update_of_ne discoveredSlot_ne,
      hstrong, if_true, hzero]
    by_cases hnext : o.contents discoveredSlot = 0
    · have henqueues : o.enqueues r = true := by simp [enqueues, hclears, hnext]
      rw [if_pos hnext, if_pos henqueues]
      unfold image
      rw [hheader, Option.getD_some]
      congr 2
      funext s
      by_cases hs : s = referentSlot
      · simp [hs, href, hclears, Ne.symm discoveredSlot_ne]
      · by_cases hs' : s = discoveredSlot
        · simp [hs', henqueues, discoveredSlot_ne]
        · simp [hs, hs']
    · have henqueues : o.enqueues r = false := by simp [enqueues, hnext]
      simp only [if_neg hnext, henqueues, Bool.false_eq_true, if_false]
      unfold image
      rw [hheader, Option.getD_some]
      congr 2
      funext s
      by_cases hs : s = referentSlot
      · simp [hs, href, hclears]
      · simp [hs, henqueues]

/-- `relocate_instance_fields` gives the image of the object. -/
theorem relocateFields_eq (hr : r.Positive) {header : ObjectHeader}
    (hheader : o.header.relocate r = some header) (address pending : ℕ) :
    o.relocateFields r address pending =
      some (o.image r pending, if o.enqueues r then address else pending) := by
  unfold relocateFields
  rw [hheader, Option.map_some]
  have hsame : ({ o with header := header }.relocateStrong r).descriptor = o.descriptor := by
    rw [relocateStrong_eq]
  simp only [hsame]
  by_cases href : o.descriptor.isReference = true
  · rw [if_pos href, relocateReferent_eq hr href hheader]
  · have hclears : o.clears r = false := by simp [clears, href]
    have henqueues : o.enqueues r = false := by simp [enqueues, hclears]
    have hslots : { o with header := header }.strongSlots = o.strongSlots := rfl
    rw [if_neg href, relocateStrong_eq, henqueues]
    unfold image
    rw [hheader, Option.getD_some]
    simp [href, henqueues, hslots]

end HeapObject

namespace HeapObject

variable {r : Relocation} {o : HeapObject}

theorem image_strong {s : ℕ} (hs : s ∈ o.strongSlots) (x : ℕ) : (o.image r x).contents s =
    if o.enqueues r && s = discoveredSlot then x else (r.object (o.contents s)).1 := by
  have hnot : (o.descriptor.isReference && s = referentSlot) = false := by
    by_cases href : o.descriptor.isReference = true
    · have hweak := (o.reference_slots href).2.2
      have hne : s ≠ referentSlot := by
        rintro rfl
        exact hweak hs
      simp [hne]
    · simp [href]
  simp only [image, hnot, Bool.false_eq_true, if_false, hs, if_true]

theorem image_referent (h : o.descriptor.isReference = true) (x : ℕ) :
    (o.image r x).contents referentSlot =
      if o.clears r then 0 else (r.object (o.contents referentSlot)).1 := by
  simp [image, h]

theorem image_other {s : ℕ} (hs : s ∉ o.strongSlots)
    (hreferent : o.descriptor.isReference = true → s ≠ referentSlot) (x : ℕ) :
    (o.image r x).contents s = o.contents s := by
  have hfirst : (o.descriptor.isReference && s = referentSlot) = false := by
    by_cases href : o.descriptor.isReference = true
    · simp [hreferent href]
    · simp [href]
  have hsecond : (o.enqueues r && s = discoveredSlot) = false := by
    by_cases href : o.descriptor.isReference = true
    · have hne : s ≠ discoveredSlot := by
        rintro rfl
        exact hs (o.reference_slots href).2.1
      simp [hne]
    · simp [enqueues, clears, href]
  simp only [image, hfirst, Bool.false_eq_true, if_false, hsecond, hs]

end HeapObject

/-! ### The objects one after another -/

/-- What the loop over the objects does: the pending list is `x` before the listed entries and `y`
after them, and memory holds the images in the end. -/
inductive Threads (r : Relocation) (old new : HeapMemory) : Relocation → ℕ → ℕ → Prop where
  | nil (x : ℕ) : Threads r old new [] x x
  | monitor {t a x y : ℕ} {rest : Relocation} (ht : t % 2 = 1)
    (hrest : Threads r old new rest x y) : Threads r old new ((t, a) :: rest) x y
  | object {t a x y : ℕ} {o : HeapObject} {rest : Relocation} (ht : t % 2 = 0)
    (hold : old t = some (.object o)) (hnew : new a = some (.object (o.image r x)))
    (hrest : Threads r old new rest (if o.enqueues r then a else x) y) :
    Threads r old new ((t, a) :: rest) x y

section Threads

variable {r : Relocation} {old mem new : HeapMemory} {entries : Relocation} {x y : ℕ}

/-- The loop rewrites the block of each object at its new place. -/
theorem relocateInstanceFields_spec (hr : r.Positive) (hnodup : (entries.map Prod.snd).Nodup)
    (hobjects : ∀ t a, (t, a) ∈ entries → t % 2 = 0 → ∃ o header, old t = some (.object o) ∧
      mem a = some (.object o) ∧ o.header.relocate r = some header) :
    ∃ new y, relocateInstanceFields r mem x entries = some (new, y) ∧
      Threads r old new entries x y ∧
      ∀ p, (∀ t, t % 2 = 0 → (t, p) ∉ entries) → new p = mem p := by
  induction entries generalizing mem x with
  | nil => exact ⟨mem, x, rfl, .nil x, fun _ _ => rfl⟩
  | cons e rest ih =>
    obtain ⟨t, a⟩ := e
    rw [map_cons, nodup_cons] at hnodup
    obtain ⟨hfresh, hnodup⟩ := hnodup
    have hne {t' a' : ℕ} (hmem : (t', a') ∈ rest) : a' ≠ a := by
      rintro rfl
      exact hfresh (mem_map.mpr ⟨_, hmem, rfl⟩)
    rcases Nat.mod_two_eq_zero_or_one t with hpar | hpar
    · obtain ⟨o, header, hold, hmem, hheader⟩ := hobjects t a mem_cons_self hpar
      have hrest : ∀ t' a', (t', a') ∈ rest → t' % 2 = 0 →
          ∃ o' header', old t' = some (.object o') ∧
          Function.update mem a (some (.object (o.image r x))) a' = some (.object o') ∧
          o'.header.relocate r = some header' := by
        intro t' a' hin hpar'
        rw [Function.update_of_ne (hne hin)]
        exact hobjects t' a' (mem_cons_of_mem _ hin) hpar'
      obtain ⟨new, y, hnew, hthreads, hframe⟩ := ih hnodup hrest
      refine ⟨new, y, ?_, .object hpar hold ?_ hthreads, ?_⟩
      · rw [relocateInstanceFields, if_neg (by omega)]
        simp only [hmem, HeapObject.relocateFields_eq hr hheader, Option.bind_some]
        exact hnew
      · rw [hframe a fun t' _ hin => hne hin rfl, Function.update_self]
      · intro p hp
        have hpa : p ≠ a := by
          rintro rfl
          exact hp t hpar mem_cons_self
        rw [hframe p fun t' hpar' hin => hp t' hpar' (mem_cons_of_mem _ hin),
          Function.update_of_ne hpa]
    · have hrest : ∀ t' a', (t', a') ∈ rest → t' % 2 = 0 →
          ∃ o' header', old t' = some (.object o') ∧
          mem a' = some (.object o') ∧ o'.header.relocate r = some header' :=
        fun t' a' hin => hobjects t' a' (mem_cons_of_mem _ hin)
      obtain ⟨new, y, hnew, hthreads, hframe⟩ := ih hnodup hrest
      refine ⟨new, y, ?_, .monitor hpar hthreads, ?_⟩
      · rw [relocateInstanceFields, if_pos hpar]
        exact hnew
      · intro p hp
        exact hframe p fun t' hpar' hin => hp t' hpar' (mem_cons_of_mem _ hin)

namespace Threads

/-- The pending list that an object finds is the one before the loop or an object before it. -/
theorem entry (h : Threads r old new entries x y) {t a : ℕ} (hmem : (t, a) ∈ entries)
    (hpar : t % 2 = 0) : ∃ o x', old t = some (.object o) ∧ new a = some (.object (o.image r x')) ∧
      (x' = x ∨ ∃ t', t' % 2 = 0 ∧ (t', x') ∈ entries) := by
  induction h with
  | nil => exact absurd hmem not_mem_nil
  | monitor ht _ ih =>
    rcases mem_cons.mp hmem with heq | hmem
    · cases heq
      omega
    · obtain ⟨o, x', hold, hnew, hx'⟩ := ih hmem
      refine ⟨o, x', hold, hnew, hx'.imp_right ?_⟩
      rintro ⟨t', hpar', hin⟩
      exact ⟨t', hpar', mem_cons_of_mem _ hin⟩
  | @object t₁ a₁ x₁ y₁ o₁ rest ht hold hnew _ ih =>
    rcases mem_cons.mp hmem with heq | hmem
    · cases heq
      exact ⟨o₁, x₁, hold, hnew, .inl rfl⟩
    · obtain ⟨o, x', hold', hnew', hx'⟩ := ih hmem
      refine ⟨o, x', hold', hnew', ?_⟩
      rcases hx' with rfl | ⟨t', hpar', hin⟩
      · by_cases hqueue : o₁.enqueues r = true
        · rw [if_pos hqueue]
          exact .inr ⟨t₁, ht, mem_cons_self⟩
        · rw [if_neg hqueue]
          exact .inl rfl
      · exact .inr ⟨t', hpar', mem_cons_of_mem _ hin⟩

theorem last (h : Threads r old new entries x y) :
    y = x ∨ ∃ t, t % 2 = 0 ∧ (t, y) ∈ entries := by
  induction h with
  | nil => exact .inl rfl
  | monitor _ _ ih =>
    refine ih.imp_right ?_
    rintro ⟨t', hpar', hin⟩
    exact ⟨t', hpar', mem_cons_of_mem _ hin⟩
  | @object t₁ a₁ x₁ y₁ o₁ rest ht _ _ _ ih =>
    rcases ih with rfl | ⟨t', hpar', hin⟩
    · by_cases hqueue : o₁.enqueues r = true
      · rw [if_pos hqueue]
        exact .inr ⟨t₁, ht, mem_cons_self⟩
      · rw [if_neg hqueue]
        exact .inl rfl
    · exact .inr ⟨t', hpar', mem_cons_of_mem _ hin⟩

end Threads

end Threads

end TraceJvm
