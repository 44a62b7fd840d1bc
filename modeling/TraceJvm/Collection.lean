import TraceJvm.CollectorRelocation

/-! A collection as a whole: what the new heap holds, and that it is well formed again. -/
namespace TraceJvm

open Placement OrderedMap

/-- What a collection leaves of a heap. The relocation gives the new places of the live objects,
and of their monitors under the addresses with the lowest bit set. -/
structure Collected (h h' : GcHeap) (live : List ℕ) (r : Relocation) : Prop where
  live_iff : ∀ p, p ∈ live ↔ h.Live p
  cells : ∀ p ∈ live, ∃ o, h.Cell p (.object o)
  capacity : h'.capacity = h.capacity
  used_le : h'.used ≤ h.used
  used_aligned : 8 ∣ h'.used
  object : ∀ p ∈ live, ∃ a, get r p = some a
  monitor : ∀ p ∈ live, ∀ m, h.memory.monitorOf p = some m → ∃ a, get r (m + 1) = some a
  source : ∀ t a, get r t = some a →
    t % 2 = 0 ∧ t ∈ live ∨ t % 2 = 1 ∧ ∃ p ∈ live, h.memory.monitorOf p = some (t - 1)
  listed : ∀ t a, (t, a) ∈ r ↔ get r t = some a
  place : ∀ t a b, get r t = some a → h.Cell (cellAddress t) b →
    8 ∣ a ∧ h'.base ≤ a ∧ a + b.size ≤ h'.base + h'.used
  order : ∀ t t' a a' b, t < t' → get r t = some a → get r t' = some a' →
    h.Cell (cellAddress t) b → a + b.size ≤ a'
  only : ∀ a b, h'.Cell a b → ∃ t, get r t = some a
  monitors : ∀ t a c, get r t = some a → t % 2 = 1 → h.Cell (t - 1) (.monitor c) →
    h'.memory a = some (.monitor c)
  threads : Threads r h.memory h'.memory r (h.relocateRoot r h.pending) h'.pending
  roots : h'.roots = h.roots.map (h.relocateRoot r)

section Collect

variable {h : GcHeap} {newHeap : ℕ} {live objs : List ℕ} {s : SlideState} (hv : h.Valid)
  (hlive : ∀ p ∈ live, ∃ o, h.Cell p (.object o)) (hl : Listed h live objs)
  (hs : Sliding h newHeap objs [] ∅ s)

include hs

theorem Sliding.keys : (objs.zip s.newLocation).map Prod.fst = objs :=
  List.map_fst_zip (Nat.le_of_eq hs.length.symm)

include hl

theorem Sliding.keys_nodup : ((objs.zip s.newLocation).map Prod.fst).Nodup := by
  rw [hs.keys]
  exact hl.order.imp fun hlt => ne_of_lt hlt

theorem Sliding.listed (t a : ℕ) : (t, a) ∈ objs.zip s.newLocation ↔
    get (objs.zip s.newLocation) t = some a :=
  ⟨get_of_mem (hs.keys_nodup hl), mem_of_get⟩

theorem Sliding.get_of_mem {t : ℕ} (ht : t ∈ objs) :
    ∃ a, get (objs.zip s.newLocation) t = some a := by
  rw [← hs.keys] at ht
  obtain ⟨⟨t', a⟩, hmem, rfl⟩ := List.mem_map.mp ht
  exact ⟨a, (hs.listed hl t' a).mp hmem⟩

omit hl in
theorem Sliding.mem_of_get {t a : ℕ}
    (hget : get (objs.zip s.newLocation) t = some a) : t ∈ objs := by
  rw [← hs.keys]
  exact List.mem_map.mpr ⟨(t, a), OrderedMap.mem_of_get hget, rfl⟩

theorem Sliding.order_get {t t' a a' : ℕ} {b : HeapBlock} (hlt : t < t')
    (ha : get (objs.zip s.newLocation) t = some a)
    (ha' : get (objs.zip s.newLocation) t' = some a')
    (hb : h.memory (cellAddress t) = some b) : a + b.size ≤ a' := by
  have hmem := OrderedMap.mem_of_get ha
  have hmem' := OrderedMap.mem_of_get ha'
  have hsorted : (objs.zip s.newLocation).Pairwise fun x y => x.1 < y.1 := by
    rw [← List.pairwise_map, hs.keys]
    exact hl.order
  have hforward : (objs.zip s.newLocation).Pairwise fun x y =>
      x.1 < y.1 → ∀ b, h.memory (cellAddress x.1) = some b → x.2 + b.size ≤ y.2 :=
    hs.order.imp fun hxy _ b hb => hxy b hb
  have hbackward : (objs.zip s.newLocation).Pairwise (flip fun x y =>
      x.1 < y.1 → ∀ b, h.memory (cellAddress x.1) = some b → x.2 + b.size ≤ y.2) :=
    hsorted.imp fun hxy hyx => absurd hxy (lt_asymm hyx)
  have hall := List.Pairwise.forall_of_forall_of_flip
    (fun _ _ hlt => absurd hlt (lt_irrefl _)) hforward hbackward
  exact hall hmem hmem' hlt b hb

omit hl in
theorem Sliding.places_nodup : ((objs.zip s.newLocation).map Prod.snd).Nodup := by
  rw [List.Nodup, List.pairwise_map]
  apply hs.order.imp_of_mem
  intro x y hx _ hxy
  obtain ⟨-, -, b, hb, -, -⟩ := hs.moved x.1 x.2 hx
  have hle := hxy b hb
  have hpos := b.size_pos
  omega

include hlive

theorem Sliding.header {t a : ℕ} (hmem : (t, a) ∈ objs.zip s.newLocation) (hpar : t % 2 = 0) :
    ∃ o header, h.memory t = some (.object o) ∧ s.memory a = some (.object o) ∧
      o.header.relocate (objs.zip s.newLocation) = some header := by
  have ht := hs.mem_of_get ((hs.listed hl t a).mp hmem)
  have htlive := hl.object t ht hpar
  obtain ⟨o, ho⟩ := hlive t htlive
  have haddr : cellAddress t = t := by
    unfold cellAddress
    omega
  obtain ⟨-, -, b, hb, hnew, -⟩ := hs.moved t a hmem
  rw [haddr, ho.block] at hb
  cases hb
  cases hheader : o.header with
  | mark w => exact ⟨o, .mark w, ho.block, hnew, by rw [hheader]; rfl⟩
  | expanded m =>
    have hmonitor : h.memory.monitorOf t = some m := by
      unfold HeapMemory.monitorOf
      simp only [ho.block, hheader, ObjectHeader.monitor]
    obtain ⟨m', hm'⟩ := hs.get_of_mem hl (hl.monitor_mem t htlive m hmonitor)
    refine ⟨o, .expanded m', ho.block, hnew, ?_⟩
    rw [hheader, ObjectHeader.relocate, hm']
    rfl

end Collect

/-- A collection ends, and gives the image of the live part of the heap. -/
theorem majorGc_spec {h : GcHeap} (hv : h.Valid) {newHeap : ℕ} (htarget : h.Target newHeap) :
    ∃ h' live r, h.majorGc newHeap = some h' ∧ h'.base = newHeap ∧ Collected h h' live r := by
  obtain ⟨ms, live, hmark, hiff, hnodup, hcells, hmemory, hobjs⟩ := markPhase_spec hv
  have hl := listed_sort hv hcells hnodup
  rw [← hobjs] at hl
  generalize hsort : ms.objs.insertionSort (· ≤ ·) = objs at hl
  obtain ⟨s, hcopy, hs⟩ := copyAll_spec (s := ⟨ms.memory, newHeap, []⟩) hv hcells hl htarget
    hmemory rfl rfl
  have hpositive : Relocation.Positive (objs.zip s.newLocation) := by
    intro p a hget
    obtain ⟨hstart, -⟩ := hs.moved p a (mem_of_get hget)
    have hpos := htarget.pos
    omega
  have hobjects : ∀ t a, (t, a) ∈ objs.zip s.newLocation → t % 2 = 0 → ∃ o header,
      h.memory t = some (.object o) ∧ s.memory a = some (.object o) ∧
      o.header.relocate (objs.zip s.newLocation) = some header :=
    fun t a hmem hpar => hs.header hcells hl hmem hpar
  obtain ⟨new, y, hrelocate, hthreads, hframe⟩ := relocateInstanceFields_spec
    (x := h.relocateRoot (objs.zip s.newLocation) h.pending) hpositive hs.places_nodup hobjects
  have hused : alignUp (s.writePtr - newHeap) 8 = s.writePtr - newHeap :=
    alignUp_of_dvd (by decide) (Nat.dvd_sub hs.aligned htarget.aligned)
  have hstart := hs.start
  have hfits := hs.fits
  refine ⟨⟨new, newHeap, h.capacity, s.writePtr - newHeap,
      h.roots.map (h.relocateRoot (objs.zip s.newLocation)), y⟩, live, objs.zip s.newLocation,
    ?_, rfl, ?_⟩
  · unfold GcHeap.majorGc
    rw [hmark, Option.bind_some]
    simp only [hsort, hcopy, Option.bind_some, hrelocate, Option.map_some, hused]
  · refine ⟨hiff, hcells, rfl, ?_, ?_, ?_, ?_, ?_, hs.listed hl, ?_, ?_, ?_, ?_, hthreads, rfl⟩
    · show s.writePtr - newHeap ≤ h.used
      omega
    · exact Nat.dvd_sub hs.aligned htarget.aligned
    · exact fun p hp => hs.get_of_mem hl (hl.object_mem p hp)
    · exact fun p hp m hm => hs.get_of_mem hl (hl.monitor_mem p hp m hm)
    · intro t a hget
      have ht := hs.mem_of_get hget
      rcases Nat.mod_two_eq_zero_or_one t with hpar | hpar
      · exact .inl ⟨hpar, hl.object t ht hpar⟩
      · exact .inr ⟨hpar, hl.monitor t ht hpar⟩
    · intro t a b hget hb
      obtain ⟨hplace, hdvd, c, hc, -, hend⟩ := hs.moved t a (mem_of_get hget)
      rw [hb.block] at hc
      cases hc
      refine ⟨hdvd, hplace, ?_⟩
      show a + b.size ≤ newHeap + (s.writePtr - newHeap)
      omega
    · intro t t' a a' b hlt ha ha' hb
      exact hs.order_get hl hlt ha ha' hb.block
    · intro a b hcell
      have hblock : new a = some b := hcell.block
      have habove : newHeap ≤ a := hcell.above
      have hbelow : a < newHeap + (s.writePtr - newHeap) := hcell.below
      by_cases hplace : ∃ t, t % 2 = 0 ∧ (t, a) ∈ objs.zip s.newLocation
      · obtain ⟨t, -, hmem⟩ := hplace
        exact ⟨t, (hs.listed hl t a).mp hmem⟩
      · rw [hframe a fun t hpar hmem => hplace ⟨t, hpar, hmem⟩] at hblock
        have hmem := hs.only a habove (by omega) (by rw [hblock]; nofun)
        have hplaces : (objs.zip s.newLocation).map Prod.snd = s.newLocation :=
          List.map_snd_zip (Nat.le_of_eq hs.length)
        rw [← hplaces] at hmem
        obtain ⟨⟨t, a'⟩, hin, rfl⟩ := List.mem_map.mp hmem
        exact ⟨t, (hs.listed hl t a').mp hin⟩
    · intro t a c hget hpar hc
      have haddr : cellAddress t = t - 1 := by
        unfold cellAddress
        omega
      have hmem := mem_of_get hget
      obtain ⟨-, -, b, hb, hnew, -⟩ := hs.moved t a hmem
      rw [haddr, hc.block] at hb
      cases hb
      show new a = _
      rw [hframe a, hnew]
      intro t' hpar' hmem'
      -- an object lies elsewhere
      obtain ⟨o, -, -, hold, -⟩ := hs.header hcells hl hmem' hpar'
      rw [hnew] at hold
      cases hold

/-! ### The cells of the new heap -/

theorem cellAddress_even {t : ℕ} (h : t % 2 = 0) : cellAddress t = t := by
  unfold cellAddress
  omega

theorem cellAddress_odd {t : ℕ} (h : t % 2 = 1) : cellAddress t = t - 1 := by
  unfold cellAddress
  omega

namespace Collected

variable {h h' : GcHeap} {live : List ℕ} {r : Relocation} (hv : h.Valid)
  (hc : Collected h h' live r) {p t t' a : ℕ} {o : HeapObject}

include hv hc

theorem source_cell (hget : get r t = some a) : t % 2 = 0 ∧ t ∈ live ∧ (∃ o, h.Cell t (.object o)) ∨
      t % 2 = 1 ∧ ∃ p ∈ live, h.memory.monitorOf p = some (t - 1) ∧
        ∃ c, h.Cell (t - 1) (.monitor c) := by
  rcases hc.source t a hget with ⟨hpar, ht⟩ | ⟨hpar, p, hp, hm⟩
  · exact .inl ⟨hpar, ht, hc.cells t ht⟩
  · obtain ⟨o, ho⟩ := hc.cells p hp
    exact .inr ⟨hpar, p, hp, hm, (hv.monitorOf_cell ho hm).2⟩

theorem source_block (hget : get r t = some a) : ∃ b, h.Cell (cellAddress t) b := by
  rcases hc.source_cell hv hget with ⟨hpar, -, o, ho⟩ | ⟨hpar, -, -, -, c, hcell⟩
  · rw [cellAddress_even hpar]
    exact ⟨_, ho⟩
  · rw [cellAddress_odd hpar]
    exact ⟨_, hcell⟩

theorem injective (ht : get r t = some a) (ht' : get r t' = some a) : t = t' := by
  obtain ⟨b, hb⟩ := hc.source_block hv ht
  obtain ⟨b', hb'⟩ := hc.source_block hv ht'
  have hpos := b.size_pos
  have hpos' := b'.size_pos
  rcases lt_trichotomy t t' with hlt | heq | hlt
  · have hle := hc.order t t' a a b hlt ht ht' hb
    omega
  · exact heq
  · have hle := hc.order t' t a a b' hlt ht' ht hb'
    omega

theorem live_of_get (hsound : h.Pointer p → ∃ o, h.Cell p (.object o))
    (hget : get r p = some a) : p ∈ live := by
  rcases hc.source_cell hv hget with ⟨-, hp, -⟩ | ⟨hpar, -, -, -, c, hcell⟩
  · exact hp
  · have hinside := hv.inside _ _ hcell
    have habove := hcell.above
    have hused := hv.used_le
    have hsize : (HeapBlock.monitor c).size = 16 := rfl
    obtain ⟨o, ho⟩ := hsound ⟨by omega, by omega, by omega⟩
    have heven := hv.even ho
    omega

theorem object_live (hp : p ∈ live) : ∃ a, get r p = some a ∧ r.object p = (a, true) := by
  obtain ⟨a, ha⟩ := hc.object p hp
  obtain ⟨o, ho⟩ := hc.cells p hp
  have hpos := hv.base_pos
  have habove := ho.above
  refine ⟨a, ha, ?_⟩
  unfold Relocation.object
  rw [if_neg (by omega), ha]

theorem object_dead (hsound : h.Pointer p → ∃ o, h.Cell p (.object o)) (hp : p ∉ live)
    (hzero : p ≠ 0) : r.object p = (p, false) := by
  unfold Relocation.object
  rw [if_neg hzero]
  cases hget : get r p with
  | none => rfl
  | some a => exact absurd (hc.live_of_get hv hsound hget) hp

theorem new_object (ho : h.Cell p (.object o)) (hget : get r p = some a) :
    ∃ x, h'.Cell a (.object (o.image r x)) ∧
      (x = h.relocateRoot r h.pending ∨ ∃ q ∈ live, get r q = some x) := by
  have heven := hv.even ho
  obtain ⟨o', x, hold, hnew, hx⟩ := hc.threads.entry ((hc.listed p a).mpr hget) heven
  rw [ho.block] at hold
  cases hold
  have hcell : h.Cell (cellAddress p) (.object o) := by
    rwa [cellAddress_even heven]
  obtain ⟨-, habove, hend⟩ := hc.place p a _ hget hcell
  have hpos := (HeapBlock.object o).size_pos
  refine ⟨x, ⟨hnew, habove, by omega⟩, hx.imp_right ?_⟩
  rintro ⟨q, hpar, hmem⟩
  have hq := (hc.listed q x).mp hmem
  rcases hc.source q x hq with ⟨-, hlive⟩ | ⟨hodd, -⟩
  · exact ⟨q, hlive, hq⟩
  · omega

theorem new_monitor {m : ℕ} {c : HeapMonitor} (hcell : h.Cell m (.monitor c))
    (hget : get r (m + 1) = some a) : h'.Cell a (.monitor c) := by
  have heven := hv.even hcell
  have hpar : (m + 1) % 2 = 1 := by omega
  have haddr : cellAddress (m + 1) = m := cellAddress_odd hpar
  have hblock := hc.monitors (m + 1) a c hget hpar hcell
  obtain ⟨-, habove, hend⟩ := hc.place (m + 1) a (.monitor c) hget (by rwa [haddr])
  have hsize : (HeapBlock.monitor c).size = 16 := rfl
  exact ⟨hblock, habove, by omega⟩

/-- Each cell of the new heap is the image of a live object or its monitor. -/
theorem cell_cases {b : HeapBlock} (hb : h'.Cell a b) :
    (∃ p o x, p ∈ live ∧ h.Cell p (.object o) ∧ get r p = some a ∧ b = .object (o.image r x) ∧
        (x = h.relocateRoot r h.pending ∨ ∃ q ∈ live, get r q = some x)) ∨
      ∃ p m c, p ∈ live ∧ h.memory.monitorOf p = some m ∧ h.Cell m (.monitor c) ∧
        get r (m + 1) = some a ∧ b = .monitor c := by
  obtain ⟨t, ht⟩ := hc.only a b hb
  rcases hc.source_cell hv ht with ⟨hpar, hlive, o, ho⟩ | ⟨hpar, p, hp, hm, c, hcell⟩
  · obtain ⟨x, hnew, hx⟩ := hc.new_object hv ho ht
    have hsame := hb.block.symm.trans hnew.block
    exact .inl ⟨t, o, x, hlive, ho, ht, Option.some.inj hsame, hx⟩
  · have hsucc : t - 1 + 1 = t := by omega
    rw [← hsucc] at ht
    have hnew := hc.new_monitor hv hcell ht
    have hsame := hb.block.symm.trans hnew.block
    exact .inr ⟨p, t - 1, c, hp, hm, hcell, ht, Option.some.inj hsame⟩

theorem pointer_of_live (hp : p ∈ live) : h.Pointer p := by
  obtain ⟨o, ho⟩ := hc.cells p hp
  have hpos := hv.base_pos
  have habove := ho.above
  have hbelow := ho.below
  have hused := hv.used_le
  exact ⟨by omega, by omega, by omega⟩

theorem relocateRoot_eq (hsound : h.Pointer p → ∃ o, h.Cell p (.object o)) :
    h.relocateRoot r p = (r.object p).1 := by
  unfold GcHeap.relocateRoot
  by_cases hptr : h.Pointer p
  · rw [if_neg (pointer_iff.mpr hptr)]
  · rw [if_pos (not_not.mp (pointer_iff.not.mpr hptr))]
    by_cases hzero : p = 0
    · rw [hzero]
      rfl
    · have hdead : p ∉ live := fun hp => hptr (hc.pointer_of_live hv hp)
      rw [hc.object_dead hv hsound hdead hzero]

omit hv in
theorem strong_live (hp : p ∈ live) (ho : h.Cell p (.object o)) {s : ℕ} (hs : s ∈ o.strongSlots)
    (hptr : h.Pointer (o.contents s)) : o.contents s ∈ live := by
  rw [hc.live_iff] at hp ⊢
  exact hp.step ⟨o, ho, s, hs, rfl, hptr⟩

omit hv in
theorem root_live {v : ℕ} (hmem : v ∈ h.pending :: h.roots) (hptr : h.Pointer v) : v ∈ live :=
  (hc.live_iff v).mpr (.ofRoot ⟨hmem, hptr⟩)

omit hv in
theorem image_header (hp : p ∈ live) (ho : h.Cell p (.object o)) (x : ℕ) :
    (∃ w, o.header = .mark w ∧ (o.image r x).header = .mark w) ∨
      ∃ m m', o.header = .expanded m ∧ h.memory.monitorOf p = some m ∧
        get r (m + 1) = some m' ∧ (o.image r x).header = .expanded m' := by
  cases hheader : o.header with
  | mark w =>
    refine .inl ⟨w, rfl, ?_⟩
    simp only [HeapObject.image, hheader, ObjectHeader.relocate, Option.getD_some]
  | expanded m =>
    have hm : h.memory.monitorOf p = some m := by
      unfold HeapMemory.monitorOf
      simp only [ho.block, hheader, ObjectHeader.monitor]
    obtain ⟨m', hm'⟩ := hc.monitor p hp m hm
    refine .inr ⟨m, m', rfl, hm, hm', ?_⟩
    simp only [HeapObject.image, hheader, ObjectHeader.relocate, hm', Option.map_some,
      Option.getD_some]

section Target

variable (htarget : h.Target h'.base)

include htarget

theorem new_pointer (hheld : h.Holds p) (hsound : h.Pointer p → p ∈ live)
    (hptr : h'.Pointer (r.object p).1) : ∃ o, h'.Cell (r.object p).1 (.object o) := by
  by_cases hp : p ∈ live
  · obtain ⟨a, ha, hobject⟩ := hc.object_live hv hp
    obtain ⟨o, ho⟩ := hc.cells p hp
    obtain ⟨x, hx, -⟩ := hc.new_object hv ho ha
    rw [hobject]
    exact ⟨_, hx⟩
  · exfalso
    have hnot : ¬ h.Pointer p := fun h => hp (hsound h)
    by_cases hzero : p = 0
    · rw [hzero] at hptr
      exact hptr.1 rfl
    · rw [hc.object_dead hv (fun h => absurd h hnot) hp hzero] at hptr
      have hout : ¬ h.InHeap p := fun hin => hnot ⟨hzero, hin⟩
      have hfresh := htarget.fresh p hheld hout
      obtain ⟨-, hlow, hhigh⟩ := hptr
      rw [hc.capacity] at hhigh
      dsimp only at hlow hhigh
      omega

theorem new_root {v : ℕ} (hmem : v ∈ h.pending :: h.roots)
    (hptr : h'.Pointer (h.relocateRoot r v)) : ∃ o, h'.Cell (h.relocateRoot r v) (.object o) := by
  rw [hc.relocateRoot_eq hv (hv.roots v hmem)] at hptr ⊢
  exact hc.new_pointer hv htarget (.inl hmem) (fun h => hc.root_live hmem h) hptr

theorem new_pending {x : ℕ} (hx : x = h.relocateRoot r h.pending ∨ ∃ q ∈ live, get r q = some x)
    (hptr : h'.Pointer x) : ∃ o, h'.Cell x (.object o) := by
  rcases hx with rfl | ⟨q, hq, hget⟩
  · exact hc.new_root hv htarget List.mem_cons_self hptr
  · obtain ⟨o, ho⟩ := hc.cells q hq
    obtain ⟨x', hx', -⟩ := hc.new_object hv ho hget
    exact ⟨_, hx'⟩

theorem new_strong (hp : p ∈ live) (ho : h.Cell p (.object o)) {x : ℕ}
    (hx : x = h.relocateRoot r h.pending ∨ ∃ q ∈ live, get r q = some x) {s : ℕ}
    (hs : s ∈ o.strongSlots) (hptr : h'.Pointer ((o.image r x).contents s)) :
    ∃ o', h'.Cell ((o.image r x).contents s) (.object o') := by
  rw [o.image_strong hs] at hptr ⊢
  by_cases hqueue : (o.enqueues r && s = discoveredSlot) = true
  · rw [if_pos hqueue] at hptr ⊢
    exact hc.new_pending hv htarget hx hptr
  · rw [if_neg hqueue] at hptr ⊢
    have hheld : h.Holds (o.contents s) := .inr ⟨p, o, ho, .inl ⟨s, hs, rfl⟩⟩
    exact hc.new_pointer hv htarget hheld (fun h => hc.strong_live hp ho hs h) hptr

theorem new_referent (ho : h.Cell p (.object o)) (href : o.descriptor.isReference = true) (x : ℕ)
    (hptr : h'.Pointer ((o.image r x).contents referentSlot)) :
    ∃ o', h'.Cell ((o.image r x).contents referentSlot) (.object o') := by
  rw [o.image_referent href] at hptr ⊢
  by_cases hclears : o.clears r = true
  · rw [if_pos hclears] at hptr
    exact absurd rfl hptr.1
  · rw [if_neg hclears] at hptr ⊢
    have hheld : h.Holds (o.contents referentSlot) := .inr ⟨p, o, ho, .inr ⟨href, rfl⟩⟩
    apply hc.new_pointer hv htarget hheld _ hptr
    intro hold
    -- a referent that was found is live
    by_contra hdead
    apply hclears
    unfold HeapObject.clears
    rw [hc.object_dead hv (hv.referents p o ho href) hdead hold.1, href]
    rfl

end Target

theorem monitorOf_cell {b : HeapBlock} {m' : ℕ} (hb : h'.Cell a b)
    (hm : h'.memory.monitorOf a = some m') :
    ∃ p m, p ∈ live ∧ h.memory.monitorOf p = some m ∧ get r p = some a ∧
      get r (m + 1) = some m' := by
  rcases hc.cell_cases hv hb with ⟨p, o, x, hp, ho, hget, rfl, -⟩ | ⟨-, -, c, -, -, -, -, rfl⟩
  · unfold HeapMemory.monitorOf at hm
    simp only [hb.block] at hm
    rcases hc.image_header hp ho x with ⟨w, -, hheader⟩ | ⟨m, m'', -, hmon, hm'', hheader⟩
    · rw [hheader] at hm
      cases hm
    · rw [hheader] at hm
      cases hm
      exact ⟨p, m, hp, hmon, hget, hm''⟩
  · unfold HeapMemory.monitorOf at hm
    simp only [hb.block] at hm
    cases hm

theorem cell_source {b : HeapBlock} (hb : h'.Cell a b) :
    ∃ t c, get r t = some a ∧ h.Cell (cellAddress t) c ∧ c.size = b.size := by
  rcases hc.cell_cases hv hb with
    ⟨p, o, x, hp, ho, hget, rfl, -⟩ | ⟨-, m, c, -, -, hcell, hget, rfl⟩
  · refine ⟨p, .object o, hget, ?_, rfl⟩
    rwa [cellAddress_even (hv.even ho)]
  · refine ⟨m + 1, .monitor c, hget, ?_, rfl⟩
    have heven := hv.even hcell
    rwa [cellAddress_odd (by omega), Nat.add_sub_cancel]

/-- The heap after a collection is well formed again. -/
theorem valid (htarget : h.Target h'.base) : h'.Valid where
  base_pos := htarget.pos
  base_aligned := htarget.aligned
  used_le := by
    have hused := hv.used_le
    have hle := hc.used_le
    have hcap := hc.capacity
    omega
  used_aligned := hc.used_aligned
  aligned a b hb := by
    obtain ⟨t, c, hget, hcell, -⟩ := hc.cell_source hv hb
    exact (hc.place t a c hget hcell).1
  inside a b hb := by
    obtain ⟨t, c, hget, hcell, hsize⟩ := hc.cell_source hv hb
    rw [← hsize]
    exact (hc.place t a c hget hcell).2.2
  disjoint a b a' b' hb hb' hlt := by
    obtain ⟨t, c, hget, hcell, hsize⟩ := hc.cell_source hv hb
    obtain ⟨t', c', hget', hcell', -⟩ := hc.cell_source hv hb'
    rcases lt_trichotomy t t' with htt | rfl | htt
    · rw [← hsize]
      exact hc.order t t' a a' c htt hget hget' hcell
    · rw [hget] at hget'
      cases hget'
      omega
    · have hle := hc.order t' t a' a c' htt hget' hget hcell'
      omega
  monitors a o' m' hb hheader := by
    rcases hc.cell_cases hv hb with ⟨p, o, x, hp, ho, hget, heq, -⟩ | ⟨-, -, c, -, -, -, -, heq⟩
    · cases heq
      rcases hc.image_header hp ho x with ⟨w, -, hw⟩ | ⟨m, m'', -, hmon, hm'', hw⟩
      · rw [hw] at hheader
        cases hheader
      · rw [hw] at hheader
        cases hheader
        obtain ⟨hlt, c, hcell⟩ := hv.monitorOf_cell ho hmon
        refine ⟨?_, c, hc.new_monitor hv hcell hm''⟩
        have hcellp : h.Cell (cellAddress p) (.object o) := by
          rwa [cellAddress_even (hv.even ho)]
        have hle := hc.order p (m + 1) a m' _ (by omega) hget hm'' hcellp
        have hpos := (HeapBlock.object o).size_pos
        omega
    · cases heq
  owner a a' m' hm hm' := by
    rintro ⟨b, hb⟩ ⟨b', hb'⟩
    obtain ⟨p, m, hp, hmon, hget, hplace⟩ := hc.monitorOf_cell hv hb hm
    obtain ⟨q, n, hq, hmon', hget', hplace'⟩ := hc.monitorOf_cell hv hb' hm'
    have hsucc := hc.injective hv hplace hplace'
    obtain rfl : m = n := by omega
    obtain ⟨o, ho⟩ := hc.cells p hp
    obtain ⟨o', ho'⟩ := hc.cells q hq
    obtain rfl := hv.owner p q m hmon hmon' ⟨_, ho⟩ ⟨_, ho'⟩
    rw [hget] at hget'
    exact Option.some.inj hget'
  unflagged a b hb := by
    rcases hc.cell_cases hv hb with ⟨p, o, x, hp, ho, -, rfl, -⟩ | ⟨-, m, c, -, -, hcell, -, rfl⟩
    · intro w hw
      rcases hc.image_header hp ho x with ⟨w', hold, hnew⟩ | ⟨m, m', -, -, -, hnew⟩
      · rw [hnew] at hw
        cases hw
        exact hv.unflagged p _ ho w hold
      · rw [hnew] at hw
        cases hw
    · exact hv.unflagged m _ hcell
  fields a o' s hb hs hptr := by
    rcases hc.cell_cases hv hb with ⟨p, o, x, hp, ho, -, heq, hx⟩ | ⟨-, -, c, -, -, -, -, heq⟩
    · cases heq
      exact hc.new_strong hv htarget hp ho hx hs hptr
    · cases heq
  referents a o' hb href hptr := by
    rcases hc.cell_cases hv hb with ⟨p, o, x, hp, ho, -, heq, -⟩ | ⟨-, -, c, -, -, -, -, heq⟩
    · cases heq
      exact hc.new_referent hv htarget ho href x hptr
    · cases heq
  roots u hu hptr := by
    rcases List.mem_cons.mp hu with rfl | hu
    · have hlast := hc.threads.last
      apply hc.new_pending hv htarget _ hptr
      refine hlast.imp_right ?_
      rintro ⟨t, hpar, hmem⟩
      have hget := (hc.listed t _).mp hmem
      rcases hc.source t _ hget with ⟨-, ht⟩ | ⟨hodd, -⟩
      · exact ⟨t, ht, hget⟩
      · omega
    · rw [hc.roots] at hu
      obtain ⟨v, hvmem, rfl⟩ := List.mem_map.mp hu
      exact hc.new_root hv htarget (List.mem_cons_of_mem _ hvmem) hptr

end Collected

end TraceJvm
