import TraceJvm.HeapUpdates
import TraceJvm.Lib.LinkedChain

/-! The pending list of references. A collection links the references that it clears into the list
through `discovered`, and the reference handler takes the list apart again. -/
namespace TraceJvm

open LinkedChain List HeapObject

/-! ### The list -/

namespace GcHeap

/-- `discovered` of a `Reference`. -/
def discovered (h : GcHeap) (p : ℕ) : Option ℕ :=
  (h.objectAt p).bind fun o =>
    if o.descriptor.isReference then some (o.contents discoveredSlot) else none

/-- The local variable `pendingList` of the reference handler. -/
def handlerList (h : GcHeap) : ℕ := h.roots.getD 0 0

/-- The local variable `ref` of the reference handler. -/
def handlerRef (h : GcHeap) : ℕ := h.roots.getD 1 0

def setHandler (h : GcHeap) (pending list ref : ℕ) : GcHeap :=
  h.withRoots pending (list :: ref :: h.roots.drop 2)

variable {h h' : GcHeap} {p q : ℕ} {l d : List ℕ}

theorem discovered_eq : h.discovered p = some q ↔
    ∃ o, h.Cell p (.object o) ∧ o.descriptor.isReference = true ∧
      o.contents discoveredSlot = q := by
  unfold discovered
  rw [Option.bind_eq_some_iff]
  constructor
  · rintro ⟨o, ho, hnext⟩
    by_cases href : o.descriptor.isReference = true
    · rw [if_pos href] at hnext
      exact ⟨o, objectAt_eq.mp ho, href, Option.some.inj hnext⟩
    · rw [if_neg href] at hnext
      cases hnext
  · rintro ⟨o, ho, href, hnext⟩
    refine ⟨o, objectAt_eq.mpr ho, ?_⟩
    rw [if_pos href, hnext]

theorem Cell.pointer (hv : h.Valid) {b : HeapBlock} (hp : h.Cell p b) : h.Pointer p := by
  have hpos := hv.base_pos
  have habove := hp.above
  have hbelow := hp.below
  have hused := hv.used_le
  exact ⟨by omega, habove, by omega⟩

/-- What the rest of the program keeps: a reference that is in the pending list, or in the list that
the handler took, has been cleared, and so has every one whose link is not null. -/
structure Queues (h : GcHeap) (l d : List ℕ) : Prop where
  valid : h.Valid
  idle : ∀ p o, h.Cell p (.object o) → o.descriptor.isReference = true →
    o.contents discoveredSlot ≠ 0 → o.contents referentSlot = 0
  pending : Chain 0 h.discovered h.pending l
  detached : Chain 0 h.discovered h.handlerList d
  apart : ∀ p ∈ l, p ∉ d
  ref : h.handlerRef ∉ l ∧ h.handlerRef ∉ d
  cleared : ∀ p o, p ∈ l ∨ p ∈ d ∨ p = h.handlerRef → h.Cell p (.object o) →
    o.descriptor.isReference = true → o.contents referentSlot = 0

theorem live_of_chain (hv : h.Valid) (hchain : Chain 0 h.discovered p l)
    (hp : p ∈ h.pending :: h.roots) : ∀ q ∈ l, h.Live q := by
  have hpointer : ∀ q ∈ l, h.Pointer q := by
    intro q hq
    obtain ⟨x, hx⟩ := hchain.next_some hq
    obtain ⟨o, ho, -⟩ := discovered_eq.mp hx
    exact ho.pointer hv
  apply hchain.forall_mem (P := h.Live)
  · intro hmem
    exact .ofRoot ⟨hp, hpointer p hmem⟩
  · intro q hq x hx hlive hnext
    obtain ⟨o, ho, href, hslot⟩ := discovered_eq.mp hnext
    exact hlive.step ⟨o, ho, discoveredSlot, (o.reference_slots href).2.1, hslot, hpointer x hx⟩

end GcHeap

/-! ### Collections -/

namespace HeapObject

variable {r : Relocation} {o : HeapObject} {x : ℕ}

theorem clears_eq : o.clears r = true ↔
    o.descriptor.isReference = true ∧ (r.object (o.contents referentSlot)).2 = false := by
  unfold clears
  rw [Bool.and_eq_true, Bool.not_eq_true']

theorem clears_of_null (h : o.contents referentSlot = 0) : o.clears r = false := by
  unfold clears
  rw [h]
  show (o.descriptor.isReference && !true) = false
  rw [Bool.not_true, Bool.and_false]

theorem enqueues_eq : o.enqueues r = true ↔ o.clears r = true ∧ o.contents discoveredSlot = 0 := by
  unfold enqueues
  rw [Bool.and_eq_true, decide_eq_true_iff]

theorem enqueues_of_null (h : o.contents referentSlot = 0) : o.enqueues r = false := by
  unfold enqueues
  rw [clears_of_null h, Bool.false_and]

theorem image_discovered (href : o.descriptor.isReference = true) :
    (o.image r x).contents discoveredSlot =
      if o.enqueues r then x else (r.object (o.contents discoveredSlot)).1 := by
  rw [image_strong (o.reference_slots href).2.1]
  by_cases h : o.enqueues r = true
  · rw [h]
    rfl
  · rw [Bool.not_eq_true] at h
    rw [h]
    rfl

theorem image_null (h : o.contents referentSlot = 0) (href : o.descriptor.isReference = true) :
    (o.image r x).contents referentSlot = 0 := by
  rw [image_referent href, clears_of_null h, h]
  rfl

end HeapObject

/-- The references that are cleared come before the old pending list, the last one first. -/
theorem Threads.chain {r : Relocation} {old new : HeapMemory} {entries : Relocation} {x y : ℕ}
    (h : Threads r old new entries x y) {next : ℕ → Option ℕ}
    (hnext : ∀ t a o x, (t, a) ∈ entries → t % 2 = 0 → old t = some (.object o) →
      new a = some (.object (o.image r x)) → o.enqueues r = true → a ≠ 0 ∧ next a = some x) :
    ∃ front, (∀ a, a ∈ front ↔ ∃ t o, (t, a) ∈ entries ∧ t % 2 = 0 ∧ old t = some (.object o) ∧
        o.enqueues r = true) ∧
      ∀ l, Chain 0 next x l → Chain 0 next y (front ++ l) := by
  induction h with
  | nil =>
    refine ⟨[], fun a => ⟨fun h => absurd h not_mem_nil, ?_⟩, fun l hl => hl⟩
    rintro ⟨t, o, hmem, -⟩
    cases hmem
  | @monitor t a x y rest ht _ ih =>
    obtain ⟨front, hfront, hchain⟩ := ih fun t' a' o x' hmem => hnext t' a' o x' (.tail _ hmem)
    refine ⟨front, fun b => (hfront b).trans ⟨?_, ?_⟩, hchain⟩
    · rintro ⟨t', o, hmem, hrest⟩
      exact ⟨t', o, .tail _ hmem, hrest⟩
    · rintro ⟨t', o, hmem, hpar, hrest⟩
      rcases mem_cons.mp hmem with heq | hmem
      · cases heq
        omega
      · exact ⟨t', o, hmem, hpar, hrest⟩
  | @object t a x y o rest ht hold hnew _ ih =>
    obtain ⟨front, hfront, hchain⟩ := ih fun t' a' o x' hmem => hnext t' a' o x' (.tail _ hmem)
    by_cases hqueue : o.enqueues r = true
    · rw [if_pos hqueue] at hchain
      obtain ⟨hne, hlink⟩ := hnext t a o x mem_cons_self ht hold hnew hqueue
      refine ⟨front ++ [a], fun b => ?_, fun l hl => ?_⟩
      · rw [mem_append, mem_singleton, hfront]
        constructor
        · rintro (⟨t', o', hmem, hrest⟩ | rfl)
          · exact ⟨t', o', .tail _ hmem, hrest⟩
          · exact ⟨t, o, mem_cons_self, ht, hold, hqueue⟩
        · rintro ⟨t', o', hmem, hrest⟩
          rcases mem_cons.mp hmem with heq | hmem
          · cases heq
            exact .inr rfl
          · exact .inl ⟨t', o', hmem, hrest⟩
      · rw [append_assoc]
        exact hchain (a :: l) (.cons hne hlink hl)
    · rw [if_neg hqueue] at hchain
      refine ⟨front, fun b => (hfront b).trans ⟨?_, ?_⟩, hchain⟩
      · rintro ⟨t', o', hmem, hrest⟩
        exact ⟨t', o', .tail _ hmem, hrest⟩
      · rintro ⟨t', o', hmem, hpar, hold', hqueue'⟩
        rcases mem_cons.mp hmem with heq | hmem
        · cases heq
          rw [hold] at hold'
          cases hold'
          exact absurd hqueue' hqueue
        · exact ⟨t', o', hmem, hpar, hold', hqueue'⟩

namespace Collected

variable {h h' : GcHeap} {live : List ℕ} {r : Relocation} {p q a : ℕ} {o : HeapObject}
  (hv : h.Valid) (hc : Collected h h' live r)

include hv hc

theorem image_cell (hp : p ∈ live) (ho : h.Cell p (.object o)) :
    ∃ x, OrderedMap.get r p = some (r.object p).1 ∧
      h'.Cell (r.object p).1 (.object (o.image r x)) := by
  obtain ⟨a, ha, hobject⟩ := hc.object_live hv hp
  obtain ⟨x, hx, -⟩ := hc.new_object hv ho ha
  rw [hobject]
  exact ⟨x, ha, hx⟩

theorem image_injective (hp : p ∈ live) (hq : q ∈ live) (heq : (r.object p).1 = (r.object q).1) :
    p = q := by
  obtain ⟨o, ho⟩ := hc.cells p hp
  obtain ⟨o', ho'⟩ := hc.cells q hq
  obtain ⟨x, hget, -⟩ := hc.image_cell hv hp ho
  obtain ⟨y, hget', -⟩ := hc.image_cell hv hq ho'
  rw [heq] at hget
  exact hc.injective hv hget hget'

theorem live_of_image (htarget : h.Target h'.base) (hmem : p ∈ h.pending :: h.roots) {b : HeapBlock}
    (hb : h'.Cell (r.object p).1 b) : p ∈ live := by
  by_contra hdead
  have hnot : ¬ h.Pointer p := fun hptr => hdead (hc.root_live hmem hptr)
  have hpos := htarget.pos
  have habove := hb.above
  have hbelow := hb.below
  by_cases hzero : p = 0
  · have hnull : (r.object p).1 = 0 := by
      rw [hzero]
      rfl
    omega
  · rw [hc.object_dead hv (fun hptr => absurd hptr hnot) hdead hzero] at habove hbelow
    have hfresh := htarget.fresh p (.inl hmem) fun hin => hnot ⟨hzero, hin⟩
    have hused := hc.used_le
    have hle := hv.used_le
    dsimp only at habove hbelow
    omega

theorem clears_iff (ho : h.Cell p (.object o)) (href : o.descriptor.isReference = true) :
    o.clears r = true ↔
      o.contents referentSlot ≠ 0 ∧ ¬ h.Live (o.contents referentSlot) := by
  rw [clears_eq, and_iff_right href, ← hc.live_iff]
  by_cases hzero : o.contents referentSlot = 0
  · rw [hzero]
    exact iff_of_false (fun h => Bool.noConfusion h) fun h => h.1 rfl
  · by_cases hlive : o.contents referentSlot ∈ live
    · obtain ⟨a, -, hobject⟩ := hc.object_live hv hlive
      rw [hobject]
      exact iff_of_false (fun h => Bool.noConfusion h) fun h => h.2 hlive
    · rw [hc.object_dead hv (hv.referents p o ho href) hlive hzero]
      exact iff_of_true rfl ⟨hzero, hlive⟩

/-- A list of cleared references moves as a whole. -/
theorem chain_image {l : List ℕ} (htarget : h.Target h'.base)
    (hchain : Chain 0 h.discovered p l) (hlive : ∀ q ∈ l, q ∈ live)
    (hcleared : ∀ q ∈ l, ∀ o, h.Cell q (.object o) → o.descriptor.isReference = true →
      o.contents referentSlot = 0) :
    Chain 0 h'.discovered (r.object p).1 (l.map fun q => (r.object q).1) := by
  apply hchain.map (fun q => (r.object q).1) (show (r.object 0).1 = 0 from rfl)
  · intro q hq
    obtain ⟨o, ho⟩ := hc.cells q (hlive q hq)
    obtain ⟨x, -, hx⟩ := hc.image_cell hv (hlive q hq) ho
    have hpos := htarget.pos
    have habove := hx.above
    omega
  · intro q hq y hnext
    obtain ⟨o, ho, href, rfl⟩ := GcHeap.discovered_eq.mp hnext
    obtain ⟨x, -, hx⟩ := hc.image_cell hv (hlive q hq) ho
    refine GcHeap.discovered_eq.mpr ⟨_, hx, href, ?_⟩
    rw [image_discovered href, enqueues_of_null (hcleared q hq o ho href)]
    rfl

/-- The pending list after the collection: first the references that it cleared. -/
theorem pending_chain {l : List ℕ} (htarget : h.Target h'.base)
    (hchain : Chain 0 h'.discovered (r.object h.pending).1 l) :
    ∃ front, (∀ a, a ∈ front ↔ ∃ p o, p ∈ live ∧ h.Cell p (.object o) ∧
        OrderedMap.get r p = some a ∧ o.enqueues r = true) ∧
      Chain 0 h'.discovered h'.pending (front ++ l) := by
  have hobject : ∀ t a o, (t, a) ∈ r → t % 2 = 0 → h.memory t = some (.object o) →
      t ∈ live ∧ h.Cell t (.object o) ∧ OrderedMap.get r t = some a := by
    intro t a o hmem hpar hold
    have hget := (hc.listed t a).mp hmem
    rcases hc.source_cell hv hget with ⟨-, hlive, o', ho'⟩ | ⟨hodd, -⟩
    · rw [ho'.block] at hold
      cases hold
      exact ⟨hlive, ho', hget⟩
    · omega
  have hlink : ∀ t a o x, (t, a) ∈ r → t % 2 = 0 → h.memory t = some (.object o) →
      h'.memory a = some (.object (o.image r x)) → o.enqueues r = true →
      a ≠ 0 ∧ h'.discovered a = some x := by
    intro t a o x hmem hpar hold hnew hqueue
    obtain ⟨hlive, ho, hget⟩ := hobject t a o hmem hpar hold
    obtain ⟨x', hx', -⟩ := hc.new_object hv ho hget
    have hpos := htarget.pos
    have habove := hx'.above
    have href := (clears_eq.mp (enqueues_eq.mp hqueue).1).1
    refine ⟨by omega, GcHeap.discovered_eq.mpr ⟨_, ⟨hnew, hx'.above, hx'.below⟩, href, ?_⟩⟩
    rw [image_discovered href, if_pos hqueue]
  obtain ⟨front, hfront, hthreads⟩ := hc.threads.chain hlink
  refine ⟨front, fun a => (hfront a).trans ⟨?_, ?_⟩, hthreads l ?_⟩
  · rintro ⟨t, o, hmem, hpar, hold, hqueue⟩
    obtain ⟨hlive, ho, hget⟩ := hobject t a o hmem hpar hold
    exact ⟨t, o, hlive, ho, hget, hqueue⟩
  · rintro ⟨p, o, -, ho, hget, hqueue⟩
    exact ⟨p, o, (hc.listed p a).mpr hget, hv.even ho, ho.block, hqueue⟩
  · rwa [hc.relocateRoot_eq hv (hv.roots _ mem_cons_self)]

end Collected

namespace GcHeap

theorem getD_root (h : GcHeap) (i : ℕ) :
    h.roots.getD i 0 ∈ h.pending :: h.roots ∨ h.roots.getD i 0 = 0 := by
  rw [getD_eq_getElem?_getD]
  cases hget : h.roots[i]? with
  | none => exact .inr rfl
  | some v => exact .inl (mem_cons_of_mem _ (mem_of_getElem? hget))

end GcHeap

section Collect

variable {h h' : GcHeap} {live : List ℕ} {r : Relocation} {l d : List ℕ} {p q a : ℕ}
  {o : HeapObject} (hq : h.Queues l d) (hc : Collected h h' live r)

include hc in
theorem Collected.getD_image (hv : h.Valid) (i : ℕ) :
    h'.roots.getD i 0 = (r.object (h.roots.getD i 0)).1 := by
  rw [hc.roots, getD_eq_getElem?_getD, getD_eq_getElem?_getD, getElem?_map]
  cases hget : h.roots[i]? with
  | none => rfl
  | some v =>
    have hmem : v ∈ h.pending :: h.roots := mem_cons_of_mem _ (mem_of_getElem? hget)
    exact hc.relocateRoot_eq hv (hv.roots v hmem)

namespace GcHeap.Queues

include hq

theorem null (hmem : q ∈ l ∨ q ∈ d ∨ q = h.handlerRef) (ho : h.Cell q (.object o))
    (hqueue : o.enqueues r = true) : False := by
  have href := (clears_eq.mp (enqueues_eq.mp hqueue).1).1
  rw [enqueues_of_null (hq.cleared q o hmem ho href)] at hqueue
  cases hqueue

theorem detached_chain : ∀ q ∈ d, h.Live q := by
  rcases h.getD_root 0 with hmem | hnull
  · exact live_of_chain hq.valid hq.detached hmem
  · have hchain := hq.detached
    unfold handlerList at hchain
    rw [hnull] at hchain
    cases hchain.unique .nil
    exact fun q hmem => absurd hmem not_mem_nil

theorem image_idle (ho : h.Cell p (.object o))
    (href : o.descriptor.isReference = true) {x : ℕ}
    (hlink : (o.image r x).contents discoveredSlot ≠ 0) :
    (o.image r x).contents referentSlot = 0 := by
  rw [image_discovered href] at hlink
  rw [image_referent href]
  by_cases hclears : o.clears r = true
  · rw [if_pos hclears]
  · have hqueue : ¬ o.enqueues r = true := fun h => hclears (enqueues_eq.mp h).1
    rw [if_neg hqueue] at hlink
    rw [if_neg hclears]
    have hne : o.contents discoveredSlot ≠ 0 := by
      intro hzero
      rw [hzero] at hlink
      exact hlink rfl
    rw [hq.idle p o ho href hne]
    rfl

include hc

theorem pending_live (hmem : q ∈ l) : q ∈ live :=
  (hc.live_iff q).mpr (live_of_chain hq.valid hq.pending mem_cons_self q hmem)

theorem detached_live (hmem : q ∈ d) : q ∈ live :=
  (hc.live_iff q).mpr (hq.detached_chain q hmem)

theorem front_apart (hmem : q ∈ l ∨ q ∈ d ∨ q = h.handlerRef) (hlive : q ∈ live)
    (ho : h.Cell p (.object o)) (hget : OrderedMap.get r p = some (r.object q).1)
    (hqueue : o.enqueues r = true) : False := by
  obtain ⟨o', ho'⟩ := hc.cells q hlive
  obtain ⟨x, hget', -⟩ := hc.image_cell hq.valid hlive ho'
  obtain rfl := hc.injective hq.valid hget hget'
  exact hq.null hmem ho hqueue

theorem image_cleared (hmem : q ∈ l ∨ q ∈ d ∨ q = h.handlerRef) (hlive : q ∈ live)
    (ho : h'.Cell (r.object q).1 (.object o)) (href : o.descriptor.isReference = true) :
    o.contents referentSlot = 0 := by
  obtain ⟨o', ho'⟩ := hc.cells q hlive
  obtain ⟨x, -, hx⟩ := hc.image_cell hq.valid hlive ho'
  cases hx.block.symm.trans ho.block
  exact image_null (hq.cleared q o' hmem ho' href) href

section Target

variable (htarget : h.Target h'.base)

include htarget

theorem ref_live {b : HeapBlock} (hb : h'.Cell h'.handlerRef b) : h.handlerRef ∈ live := by
  unfold handlerRef at hb
  rw [hc.getD_image hq.valid 1] at hb
  rcases h.getD_root 1 with hmem | hnull
  · exact hc.live_of_image hq.valid htarget hmem hb
  · have habove := hb.above
    have hpos := htarget.pos
    rw [hnull] at habove
    have hzero : (r.object 0).1 = 0 := rfl
    omega

theorem ref_image (hmem : q ∈ l ∨ q ∈ d) (heq : (r.object q).1 = h'.handlerRef) :
    h.handlerRef = q := by
  have hlive : q ∈ live := hmem.elim (hq.pending_live hc) (hq.detached_live hc)
  obtain ⟨o, ho⟩ := hc.cells q hlive
  obtain ⟨x, -, hx⟩ := hc.image_cell hq.valid hlive ho
  rw [heq] at hx
  have hplace : h'.handlerRef = (r.object h.handlerRef).1 := hc.getD_image hq.valid 1
  exact hc.image_injective hq.valid (hq.ref_live hc htarget hx) hlive (hplace.symm.trans heq.symm)

/-- A collection keeps the lists, and adds to the pending list what it clears. -/
theorem collect : ∃ front, (∀ a, a ∈ front ↔ ∃ p o, p ∈ live ∧ h.Cell p (.object o) ∧
      OrderedMap.get r p = some a ∧ o.enqueues r = true) ∧
    h'.Queues (front ++ l.map fun p => (r.object p).1) (d.map fun p => (r.object p).1) := by
  have hv := hq.valid
  have hplace : h'.handlerRef = (r.object h.handlerRef).1 := hc.getD_image hv 1
  obtain ⟨front, hfront, hpending⟩ := hc.pending_chain hv htarget <|
    hc.chain_image hv htarget hq.pending (fun q => hq.pending_live hc) fun q hmem o =>
      hq.cleared q o (.inl hmem)
  refine ⟨front, hfront, hc.valid hv htarget, ?_, hpending, ?_, ?_, ⟨?_, ?_⟩, ?_⟩
  · intro a o' ho' href hlink
    rcases hc.cell_cases hv ho' with ⟨p, o, x, hp, ho, -, heq, -⟩ | ⟨-, -, c, -, -, -, -, heq⟩
    · cases heq
      exact hq.image_idle ho href hlink
    · cases heq
  · unfold handlerList
    rw [hc.getD_image hv 0]
    exact hc.chain_image hv htarget hq.detached (fun q => hq.detached_live hc) fun q hmem o =>
      hq.cleared q o (.inr (.inl hmem))
  · intro a hmem hmem'
    obtain ⟨q, hqd, rfl⟩ := mem_map.mp hmem'
    rcases mem_append.mp hmem with hmem | hmem
    · obtain ⟨p, o, -, ho, hget, hqueue⟩ := (hfront _).mp hmem
      exact hq.front_apart hc (.inr (.inl hqd)) (hq.detached_live hc hqd) ho hget hqueue
    · obtain ⟨p, hpl, himage⟩ := mem_map.mp hmem
      have hsame := hc.image_injective hv (hq.pending_live hc hpl) (hq.detached_live hc hqd) himage
      rw [hsame] at hpl
      exact hq.apart q hpl hqd
  · intro hmem
    rcases mem_append.mp hmem with hmem | hmem
    · obtain ⟨p, o, -, ho, hget, hqueue⟩ := (hfront _).mp hmem
      obtain ⟨x, hx, -⟩ := hc.new_object hv ho hget
      rw [hplace] at hget
      exact hq.front_apart hc (.inr (.inr rfl)) (hq.ref_live hc htarget hx) ho hget hqueue
    · obtain ⟨p, hpl, himage⟩ := mem_map.mp hmem
      rw [← hq.ref_image hc htarget (.inl hpl) himage] at hpl
      exact hq.ref.1 hpl
  · intro hmem
    obtain ⟨p, hpd, himage⟩ := mem_map.mp hmem
    rw [← hq.ref_image hc htarget (.inr hpd) himage] at hpd
    exact hq.ref.2 hpd
  · intro a o' hmem ho' href
    rcases hmem with hmem | hmem | rfl
    · rcases mem_append.mp hmem with hmem | hmem
      · obtain ⟨p, o, -, ho, hget, hqueue⟩ := (hfront a).mp hmem
        obtain ⟨x, hx, -⟩ := hc.new_object hv ho hget
        cases hx.block.symm.trans ho'.block
        replace href : o.descriptor.isReference = true := href
        rw [image_referent href, if_pos (enqueues_eq.mp hqueue).1]
      · obtain ⟨p, hpl, rfl⟩ := mem_map.mp hmem
        exact hq.image_cleared hc (.inl hpl) (hq.pending_live hc hpl) ho' href
    · obtain ⟨p, hpd, rfl⟩ := mem_map.mp hmem
      exact hq.image_cleared hc (.inr (.inl hpd)) (hq.detached_live hc hpd) ho' href
    · have hlive := hq.ref_live hc htarget ho'
      rw [hplace] at ho'
      exact hq.image_cleared hc (.inr (.inr rfl)) hlive ho' href

end Target

end GcHeap.Queues

end Collect

end TraceJvm
