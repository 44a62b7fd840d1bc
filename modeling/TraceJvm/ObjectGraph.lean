import TraceJvm.HeapMonitors
import TraceJvm.ReferenceProcessing

/-! A collection preserves the graph of the objects that are reachable without passing through the
referent of a `Reference`. -/
namespace TraceJvm

open Worklist List

/-! ### Graphs -/

/-- An object and its image under a map of addresses agree in class, length, mark word, monitor and
the words that hold no references. -/
structure SameObject (h h' : GcHeap) (f : ℕ → ℕ) (p : ℕ) (o o' : HeapObject) : Prop where
  descriptor : o'.descriptor = o.descriptor
  length : o'.length = o.length
  markWord : h'.memory.markWord (f p) = h.memory.markWord p
  locked : ∀ a c, o.header = .expanded a → h.Cell a (.monitor c) →
    ∃ a', o'.header = .expanded a' ∧ h'.Cell a' (.monitor c)
  unlocked : ∀ w, o.header = .mark w → o'.header = .mark w
  words : ∀ s, s ∉ o.strongSlots → (o.descriptor.isReference = true → s ≠ referentSlot) →
    o'.contents s = o.contents s

/-- The objects that are laid out are the images of those in a set, the roots are images, and
nothing overlaps. -/
structure GraphImage (h h' : GcHeap) (f : ℕ → ℕ) (reached : ℕ → Prop) : Prop where
  null : f 0 = 0
  injective : ∀ p q, reached p → reached q → f p = f q → p = q
  onto : ∀ a o', h'.Cell a (.object o') → ∃ p o, reached p ∧ h.Cell p (.object o) ∧ f p = a
  object : ∀ p o, reached p → h.Cell p (.object o) →
    ∃ o', h'.Cell (f p) (.object o') ∧ SameObject h h' f p o o'
  roots : h'.roots = h.roots.map f
  used_le : h'.used ≤ h'.capacity
  inside : ∀ a b, h'.Cell a b → h'.base ≤ a ∧ a + b.size ≤ h'.base + h'.used
  apart : ∀ a b a' b', h'.Cell a b → h'.Cell a' b' → a < a' → a + b.size ≤ a'

def GcHeap.Reaches (h : GcHeap) (p : ℕ) : Prop :=
  Found (fun a b => ∃ o, h.Cell a (.object o) ∧ h.Pointer b ∧
    ∃ s, (s ∈ o.strongSlots ∨ o.descriptor.isReference = true ∧ s = referentSlot) ∧
      o.contents s = b) h.Root p

/-- Every reachable object has an image, and each of its references and each root is the image of
its old value. -/
def GcHeap.PreservesGraph (h h' : GcHeap) : Prop :=
  ∃ f, GraphImage h h' f h.Reaches ∧ h'.pending = f h.pending ∧
    ∀ p o o' s, h.Reaches p → h.Cell p (.object o) → h'.Cell (f p) (.object o') →
      (s ∈ o.strongSlots ∨ o.descriptor.isReference = true ∧ s = referentSlot) →
      o'.contents s = f (o.contents s)

def GcHeap.Drops (h : GcHeap) (o : HeapObject) : Prop :=
  o.descriptor.isReference = true ∧ o.contents referentSlot ≠ 0 ∧
    ¬ h.Live (o.contents referentSlot)

/-! ### The image -/

theorem Threads.unchanged {r : Relocation} {old new : HeapMemory} {entries : Relocation} {x y : ℕ}
    (h : Threads r old new entries x y) (hnone : ∀ t a o, (t, a) ∈ entries → t % 2 = 0 →
      old t = some (.object o) → ¬ o.enqueues r = true) : y = x := by
  induction h with
  | nil => rfl
  | monitor _ _ ih => exact ih fun t a o hmem => hnone t a o (.tail _ hmem)
  | @object t a x y o rest ht hold _ _ ih =>
    have hqueue := hnone t a o mem_cons_self ht hold
    rw [ih fun t a o hmem => hnone t a o (.tail _ hmem), if_neg hqueue]

namespace Collected

variable {h h' : GcHeap} {live : List ℕ} {r : Relocation} {p : ℕ} {o : HeapObject}
  (hv : h.Valid) (hc : Collected h h' live r)

include hv hc

theorem same_object (hp : p ∈ live) (ho : h.Cell p (.object o)) {x : ℕ}
    (hx : h'.Cell (r.object p).1 (.object (o.image r x))) :
    SameObject h h' (fun q => (r.object q).1) p o (o.image r x) where
  descriptor := rfl
  length := rfl
  markWord := GcHeap.Carries.image_markWord hv hc hp ho hx
  locked a c hheader hcell := by
    rcases hc.image_header hp ho x with ⟨w, hold, -⟩ | ⟨m, m', hold, -, hget, hnew⟩
    · rw [hheader] at hold
      cases hold
    · rw [hheader] at hold
      cases hold
      exact ⟨m', hnew, hc.new_monitor hv hcell hget⟩
  unlocked w hheader := by
    rcases hc.image_header hp ho x with ⟨w', hold, hnew⟩ | ⟨m, m', hold, -⟩
    · rw [hheader] at hold
      cases hold
      exact hnew
    · rw [hheader] at hold
      cases hold
  words s hs hreferent := o.image_other hs hreferent x

theorem graph_image (htarget : h.Target h'.base) :
    GraphImage h h' (fun q => (r.object q).1) h.Live where
  null := rfl
  injective p q hp hq heq :=
    hc.image_injective hv ((hc.live_iff p).mpr hp) ((hc.live_iff q).mpr hq) heq
  onto a o' ho' := by
    rcases hc.cell_cases hv ho' with ⟨p, o, x, hp, ho, hget, -, -⟩ | ⟨-, -, c, -, -, -, -, heq⟩
    · obtain ⟨b, hb, hobject⟩ := hc.object_live hv hp
      rw [hget] at hb
      cases hb
      exact ⟨p, o, (hc.live_iff p).mp hp, ho, congrArg Prod.fst hobject⟩
    · cases heq
  object p o hp ho := by
    have hp := (hc.live_iff p).mpr hp
    obtain ⟨x, -, hx⟩ := hc.image_cell hv hp ho
    exact ⟨_, hx, hc.same_object hv hp ho hx⟩
  roots := by
    rw [hc.roots]
    apply map_congr_left
    intro v hmem
    exact hc.relocateRoot_eq hv (hv.roots v (mem_cons_of_mem _ hmem))
  used_le := (hc.valid hv htarget).used_le
  inside a b hb := ⟨hb.above, (hc.valid hv htarget).inside a b hb⟩
  apart := (hc.valid hv htarget).disjoint

theorem pending_unchanged (hnone : ∀ p o, h.Live p → h.Cell p (.object o) → ¬ h.Drops o) :
    h'.pending = (r.object h.pending).1 := by
  rw [← hc.relocateRoot_eq hv (hv.roots _ mem_cons_self)]
  apply hc.threads.unchanged
  intro t a o hmem hpar hold hqueue
  rcases hc.source_cell hv ((hc.listed t a).mp hmem) with ⟨-, hlive, o', ho'⟩ | ⟨hodd, -⟩
  · have hsame := ho'.block.symm.trans hold
    cases hsame
    have hclears := (HeapObject.enqueues_eq.mp hqueue).1
    have href := (HeapObject.clears_eq.mp hclears).1
    exact hnone t o ((hc.live_iff t).mp hlive) ho' ⟨href, (hc.clears_iff hv ho' href).mp hclears⟩
  · omega

/-- The references in an image. -/
theorem image_references (hp : h.Live p) (ho : h.Cell p (.object o)) {o' : HeapObject}
    (ho' : h'.Cell (r.object p).1 (.object o')) :
    (∀ s ∈ o.strongSlots, ¬ (h.Drops o ∧ s = discoveredSlot) →
      o'.contents s = (r.object (o.contents s)).1) ∧
    (o.descriptor.isReference = true → ¬ h.Drops o →
      o'.contents referentSlot = (r.object (o.contents referentSlot)).1) ∧
    (h.Drops o → o'.contents referentSlot = 0) := by
  have hp := (hc.live_iff p).mpr hp
  obtain ⟨x, -, hx⟩ := hc.image_cell hv hp ho
  have hsame := hx.block.symm.trans ho'.block
  cases hsame
  refine ⟨fun s hs hnot => ?_, fun href hkept => ?_, fun hdrops => ?_⟩
  · rw [HeapObject.image_strong hs]
    apply if_neg
    intro hqueue
    rw [Bool.and_eq_true, decide_eq_true_iff] at hqueue
    have hclears := (HeapObject.enqueues_eq.mp hqueue.1).1
    have href := (HeapObject.clears_eq.mp hclears).1
    exact hnot ⟨⟨href, (hc.clears_iff hv ho href).mp hclears⟩, hqueue.2⟩
  · rw [HeapObject.image_referent href]
    exact if_neg fun hclears => hkept ⟨href, (hc.clears_iff hv ho href).mp hclears⟩
  · rw [HeapObject.image_referent hdrops.1]
    exact if_pos ((hc.clears_iff hv ho hdrops.1).mpr hdrops.2)

end Collected

/-- A collection lays out the images of the live objects, in which all references are images too,
but for the references that it clears: these lose their referent and may be linked. -/
theorem majorGc_preserves_graph {h : GcHeap} (hv : h.Valid) {newHeap : ℕ}
    (htarget : h.Target newHeap) : ∃ h' f, h.majorGc newHeap = some h' ∧ h'.base = newHeap ∧
      h'.capacity = h.capacity ∧ GraphImage h h' f h.Live ∧
      (∀ p o o', h.Live p → h.Cell p (.object o) → h'.Cell (f p) (.object o') →
        (∀ s ∈ o.strongSlots, ¬ (h.Drops o ∧ s = discoveredSlot) →
          o'.contents s = f (o.contents s)) ∧
        (o.descriptor.isReference = true → ¬ h.Drops o →
          o'.contents referentSlot = f (o.contents referentSlot)) ∧
        (h.Drops o → o'.contents referentSlot = 0)) ∧
      ((∀ p o, h.Live p → h.Cell p (.object o) → ¬ h.Drops o) → h'.pending = f h.pending) := by
  obtain ⟨h', live, r, hgc, rfl, hc⟩ := majorGc_spec hv htarget
  exact ⟨h', fun q => (r.object q).1, hgc, rfl, hc.capacity, hc.graph_image hv htarget,
    fun p o o' hp ho ho' => hc.image_references hv hp ho ho', hc.pending_unchanged hv⟩

theorem majorGc_preserves_graph_weak : ∃ h' f, weakHeap.majorGc 8 = some h' ∧
    GraphImage weakHeap h' f weakHeap.Live := by
  have htarget : weakHeap.Target 8 := weakHeap_valid.target_base
  obtain ⟨h', f, hgc, -, -, himage, -⟩ := majorGc_preserves_graph weakHeap_valid htarget
  exact ⟨h', f, hgc, himage⟩

/-- The object that only a weak reference holds is not laid out, and the reference loses it. -/
theorem majorGc_loses_referent : weakHeap.Valid ∧
    ∃ h', weakHeap.majorGc 8 = some h' ∧ ¬ weakHeap.PreservesGraph h' := by
  refine ⟨weakHeap_valid, ?_⟩
  have hresult : (weakHeap.majorGc 8).map (fun h =>
      (h.base, h.used, (List.range 40).filter fun p => (h.objectAt p).isSome)) =
        some (8, 32, [8]) := by decide
  obtain ⟨h', hgc, hcells⟩ := Option.map_eq_some_iff.mp hresult
  obtain ⟨hbase, hrest⟩ := Prod.mk.inj hcells
  obtain ⟨hused, honly⟩ := Prod.mk.inj hrest
  refine ⟨h', hgc, fun hpreserves => ?_⟩
  obtain ⟨f, himage, -⟩ := hpreserves
  have hplace : ∀ {a o}, h'.Cell a (.object o) → a = 8 := by
    intro a o ho
    have hbelow := ho.below
    have hmem : a ∈ (List.range 40).filter fun p => (h'.objectAt p).isSome := by
      rw [mem_filter, mem_range, GcHeap.objectAt_eq.mpr ho]
      exact ⟨by omega, rfl⟩
    rw [honly] at hmem
    exact mem_singleton.mp hmem
  have hweak : ∃ o, weakHeap.Cell 24 (.object o) ∧ o.descriptor.isReference = true ∧
      o.contents referentSlot = 8 := ⟨_, ⟨rfl, by decide, by decide⟩, rfl, rfl⟩
  have hreferent : ∃ o, weakHeap.Cell 8 (.object o) := ⟨_, rfl, by decide, by decide⟩
  obtain ⟨o, ho, href, hslot⟩ := hweak
  obtain ⟨x, hx⟩ := hreferent
  have hroot : weakHeap.Reaches 24 := .ofRoot ⟨by decide, ho.pointer weakHeap_valid⟩
  have hreach : weakHeap.Reaches 8 :=
    hroot.step ⟨o, ho, hx.pointer weakHeap_valid, referentSlot, .inr ⟨href, rfl⟩, hslot⟩
  obtain ⟨o', ho', -⟩ := himage.object 24 o hroot ho
  obtain ⟨x', hx', -⟩ := himage.object 8 x hreach hx
  have hsame := himage.injective 24 8 hroot hreach ((hplace ho').trans (hplace hx').symm)
  exact absurd hsame (by decide)

end TraceJvm
