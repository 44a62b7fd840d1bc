import TraceJvm.Lib.Transition
import TraceJvm.PendingList

/-! Reference processing in all runs of the collector, the reference handler and the rest of the
program. -/
namespace TraceJvm

open LinkedChain Transition List HeapObject

/-! ### The machine -/

/-- `majorGc`, `clear0`, `getAndClear` and the statements of the reference handler are the ones that
know the list; the others stand for the rest of the program. -/
inductive ReferenceEvent where
  | majorGc (newHeap : ℕ)
  /-- `bump_allocate` where there is room, with the first contents of the block -/
  | place (b : HeapBlock)
  /-- A block is written in place: fields, elements, locks, hashes. -/
  | replace (p : ℕ) (b : HeapBlock)
  /-- The roots other than those of the handler. -/
  | setRoots (roots : List ℕ)
  /-- The constructor of `Reference` -/
  | construct (obj referent : ℕ)
  | clear0 (obj : ℕ)
  /-- `pendingList = getAndClearReferencePendingList()` -/
  | getAndClear
  /-- `ref = pendingList; pendingList = ref.discovered` -/
  | dequeue
  /-- `ref.discovered = null` -/
  | unlink

namespace GcHeap

def referenceStep (h : GcHeap) : ReferenceEvent → Option GcHeap
  | .majorGc newHeap => h.majorGc newHeap
  | .place b =>
    if h.used + b.size ≤ h.capacity then some ((h.take b.size).update (h.base + h.used) b) else none
  | .replace p b => some (h.update p b)
  | .setRoots roots => some (h.withRoots h.pending (h.handlerList :: h.handlerRef :: roots))
  | .construct obj referent =>
    (h.objectAt obj).map fun o => h.update obj (.object (o.set referentSlot referent))
  | .clear0 obj => (h.objectAt obj).map fun o => h.update obj (.object (o.set referentSlot 0))
  | .getAndClear => some (h.setHandler 0 h.pending h.handlerRef)
  | .dequeue =>
    (h.discovered h.handlerList).map fun next => h.setHandler h.pending next h.handlerList
  | .unlink =>
    (h.objectAt h.handlerRef).map fun o => h.update h.handlerRef (.object (o.set discoveredSlot 0))

def Sound (h : GcHeap) (v : ℕ) : Prop := h.Pointer v → ∃ o, h.Cell v (.object o)

def Unqueued (h : GcHeap) (obj : ℕ) : Prop :=
  obj ≠ h.handlerRef ∧
    ∀ l, Chain 0 h.discovered h.pending l ∨ Chain 0 h.discovered h.handlerList l → obj ∉ l

/-- The rest of the program stores objects only, and leaves `referent` and `discovered` alone, which
are private: a constructor runs once. -/
def ReferenceOk (h : GcHeap) : ReferenceEvent → Prop
  | .majorGc newHeap => h.Target newHeap
  | .place b => b.Unflagged ∧ ∀ o, b = .object o → o.header.monitor = none ∧
    (∀ s ∈ o.strongSlots, h.Sound (o.contents s)) ∧
    (o.descriptor.isReference = true → h.Sound (o.contents referentSlot) ∧
      o.contents discoveredSlot = 0)
  | .replace p b => ∃ c, h.Cell p c ∧ h.Replaces p c b ∧ ∀ o o', c = .object o → b = .object o' →
    o'.id = o.id ∧ o'.descriptor = o.descriptor ∧ (o.descriptor.isReference = true →
      o'.contents referentSlot = o.contents referentSlot ∧
      o'.contents discoveredSlot = o.contents discoveredSlot)
  | .setRoots roots => ∀ v ∈ roots, h.Sound v
  | .construct obj referent => h.Sound referent ∧ h.Unqueued obj ∧
    ∀ o, h.Cell obj (.object o) → o.contents discoveredSlot = 0
  | _ => True

variable {h h' : GcHeap} {p q v : ℕ} {l d : List ℕ} {o : HeapObject} {b : HeapBlock}

theorem objectAt_update_of_ne (hne : q ≠ p) : (h.update p b).objectAt q = h.objectAt q := by
  have hmemory : (h.update p b).memory q = h.memory q := Function.update_of_ne hne _ _
  unfold objectAt
  rw [hmemory]
  rfl

theorem discovered_update_of_ne (hne : q ≠ p) : (h.update p b).discovered q = h.discovered q := by
  unfold discovered
  rw [objectAt_update_of_ne hne]

theorem set_replaces (hv : h.Valid) (ho : h.Cell p (.object o)) {s : ℕ} (hsound : h.Sound v) :
    h.Replaces p (.object o) (.object (o.set s v)) := by
  have hslot : ∀ i, h.Sound (o.contents i) → h.Sound ((o.set s v).contents i) := by
    intro i hi
    show h.Sound (Function.update o.contents s v i)
    by_cases heq : i = s
    · rw [heq, Function.update_self]
      exact hsound
    · rw [Function.update_of_ne heq]
      exact hi
  refine ⟨rfl, fun w hw => hv.unflagged p _ ho w hw, ?_, nofun⟩
  rintro o' heq
  cases heq
  exact ⟨⟨o, rfl⟩, fun a ha => hv.own_monitor ho ha,
    fun i hi => hslot i (hv.fields p o i ho hi), fun href => hslot _ (hv.referents p o ho href)⟩

namespace Queues

variable (hq : h.Queues l d)

include hq

theorem member (hmem : q ∈ l ∨ q ∈ d) :
    ∃ o, h.Cell q (.object o) ∧ o.descriptor.isReference = true := by
  have hnext : ∃ x, h.discovered q = some x :=
    hmem.elim (fun hl => hq.pending.next_some hl) fun hd => hq.detached.next_some hd
  obtain ⟨x, hx⟩ := hnext
  obtain ⟨o, ho, href, -⟩ := discovered_eq.mp hx
  exact ⟨o, ho, href⟩

/-- A step that does not touch the lists. -/
theorem keep (hv : h'.Valid) (hpending : h'.pending = h.pending)
    (hlist : h'.handlerList = h.handlerList) (href : h'.handlerRef = h.handlerRef)
    (hlinks : ∀ p, p ∈ l ∨ p ∈ d → h'.discovered p = h.discovered p)
    (hidle : ∀ p o, h'.Cell p (.object o) → o.descriptor.isReference = true →
      o.contents discoveredSlot ≠ 0 → o.contents referentSlot = 0)
    (hcleared : ∀ p o, p ∈ l ∨ p ∈ d ∨ p = h.handlerRef → h'.Cell p (.object o) →
      o.descriptor.isReference = true → o.contents referentSlot = 0) : h'.Queues l d where
  valid := hv
  idle := hidle
  pending := by
    rw [hpending]
    exact hq.pending.congr fun p hp => hlinks p (.inl hp)
  detached := by
    rw [hlist]
    exact hq.detached.congr fun p hp => hlinks p (.inr hp)
  apart := hq.apart
  ref := by
    rw [href]
    exact hq.ref
  cleared p o hp := by
    rw [href] at hp
    exact hcleared p o hp

/-- A store to an object: one to `discovered` is outside the lists, and `referent` is set outside
them or to null. -/
theorem set (ho : h.Cell p (.object o)) {s : ℕ} (hsound : h.Sound v)
    (hlink : s = discoveredSlot → v = 0 ∧ p ∉ l ∧ p ∉ d)
    (hreferent : s = referentSlot → v ≠ 0 → o.contents discoveredSlot = 0 ∧ p ∉ l ∧ p ∉ d ∧
      p ≠ h.handlerRef) : (h.update p (.object (o.set s v))).Queues l d := by
  have hv := hq.valid
  have hcontents : ∀ i, (o.set s v).contents i = if i = s then v else o.contents i := by
    intro i
    show Function.update o.contents s v i = _
    rw [Function.update_apply]
  apply hq.keep (hv.update ho (set_replaces hv ho hsound)) rfl rfl rfl
  · intro q hmem
    by_cases hqp : q = p
    · subst hqp
      obtain ⟨o', ho', href⟩ := hq.member hmem
      cases ho.block.symm.trans ho'.block
      have hold : h.discovered q = some (o.contents discoveredSlot) :=
        discovered_eq.mpr ⟨o, ho, href, rfl⟩
      have hne : discoveredSlot ≠ s := by
        intro heq
        obtain ⟨-, hl, hd⟩ := hlink heq.symm
        exact hmem.elim hl hd
      rw [hold]
      refine discovered_eq.mpr ⟨_, (cell_update ho).mpr (.inl ⟨rfl, rfl⟩), href, ?_⟩
      rw [hcontents, if_neg hne]
    · exact discovered_update_of_ne hqp
  · intro q o' ho' href hne
    rcases (cell_update ho).mp ho' with ⟨rfl, heq⟩ | ⟨-, hold⟩
    · cases heq
      rw [hcontents] at hne ⊢
      by_cases hs : referentSlot = s
      · rw [if_pos hs]
        by_contra hzero
        rw [if_neg (fun h => discoveredSlot_ne (h.trans hs.symm))] at hne
        exact hne (hreferent hs.symm hzero).1
      · rw [if_neg hs]
        apply hq.idle q o ho href
        intro hzero
        by_cases hd : discoveredSlot = s
        · rw [if_pos hd] at hne
          exact hne (hlink hd.symm).1
        · rw [if_neg hd] at hne
          exact hne hzero
    · exact hq.idle q o' hold href hne
  · intro q o' hmem ho' href
    rcases (cell_update ho).mp ho' with ⟨rfl, heq⟩ | ⟨-, hold⟩
    · cases heq
      rw [hcontents]
      by_cases hs : referentSlot = s
      · rw [if_pos hs]
        by_contra hzero
        obtain ⟨-, hl, hd, href⟩ := hreferent hs.symm hzero
        exact hmem.elim hl fun hmem => hmem.elim hd href
      · rw [if_neg hs]
        exact hq.cleared q o hmem ho href
    · exact hq.cleared q o' hmem hold href

theorem replace {c : HeapBlock} (hp : h.Cell p c) (hr : h.Replaces p c b)
    (hsame : ∀ o o', c = .object o → b = .object o' → o'.id = o.id ∧
      o'.descriptor = o.descriptor ∧ (o.descriptor.isReference = true →
        o'.contents referentSlot = o.contents referentSlot ∧
        o'.contents discoveredSlot = o.contents discoveredSlot)) : (h.update p b).Queues l d := by
  have hcell : ∀ q o', (h.update p b).Cell q (.object o') → o'.descriptor.isReference = true →
      ∃ o, h.Cell q (.object o) ∧ o.descriptor.isReference = true ∧
        o'.contents referentSlot = o.contents referentSlot ∧
        o'.contents discoveredSlot = o.contents discoveredSlot := by
    intro q o' ho' href
    rcases (cell_update hp).mp ho' with ⟨rfl, rfl⟩ | ⟨-, hold⟩
    · obtain ⟨⟨o, rfl⟩, -⟩ := hr.object o' rfl
      obtain ⟨-, hdesc, hslots⟩ := hsame o o' rfl rfl
      rw [hdesc] at href
      exact ⟨o, hp, href, hslots href⟩
    · exact ⟨o', hold, href, rfl, rfl⟩
  apply hq.keep (hq.valid.update hp hr) rfl rfl rfl
  · intro q hmem
    obtain ⟨o, ho, href⟩ := hq.member hmem
    obtain ⟨o', ho'⟩ := Valid.object_update hp hr ⟨o, ho⟩
    by_cases hqp : q = p
    · subst hqp
      cases hp.block.symm.trans ho.block
      rcases (cell_update hp).mp ho' with ⟨-, rfl⟩ | ⟨hne, -⟩
      · obtain ⟨-, hdesc, hslots⟩ := hsame o o' rfl rfl
        have hold : h.discovered q = some (o.contents discoveredSlot) :=
          discovered_eq.mpr ⟨o, ho, href, rfl⟩
        rw [hold, discovered_eq]
        refine ⟨o', ho', ?_, (hslots href).2⟩
        rw [hdesc]
        exact href
      · exact absurd rfl hne
    · exact discovered_update_of_ne hqp
  · intro q o' ho' href hne
    obtain ⟨o, ho, href', hreferent, hlink⟩ := hcell q o' ho' href
    rw [hlink] at hne
    rw [hreferent]
    exact hq.idle q o ho href' hne
  · intro q o' hmem ho' href
    obtain ⟨o, ho, href', hreferent, -⟩ := hcell q o' ho' href
    rw [hreferent]
    exact hq.cleared q o hmem ho href'

section Place

variable (hflag : b.Unflagged) (hobject : ∀ o, b = .object o → o.header.monitor = none ∧
  (∀ s ∈ o.strongSlots, h.Sound (o.contents s)) ∧
  (o.descriptor.isReference = true → h.Sound (o.contents referentSlot) ∧
    o.contents discoveredSlot = 0))

include hflag hobject

theorem place_fits : (h.take b.size).Fits (h.base + h.used) b := by
  apply hq.valid.fits hflag
  intro o heq
  obtain ⟨hheader, hstrong, hweak⟩ := hobject o heq
  exact ⟨hheader, hstrong, fun href => (hweak href).1⟩

theorem place (hroom : h.used + b.size ≤ h.capacity) :
    ((h.take b.size).update (h.base + h.used) b).Queues l d := by
  have hv := hq.valid
  have hf := hq.place_fits hflag hobject
  have hcell : ∀ {q o}, h.Cell q (.object o) →
      ((h.take b.size).update (h.base + h.used) b).Cell q (.object o) :=
    fun hcell => hf.old ((cell_take hv).mpr hcell)
  have hfree : ∀ {c}, ¬ h.Cell (h.base + h.used) c := fun hcell => by
    have hbelow := hcell.below
    omega
  have hpos := b.size_pos
  apply hq.keep (hf.valid (hv.take b.dvd_size hroom)) rfl rfl rfl
  · intro q hmem
    obtain ⟨o, ho, href⟩ := hq.member hmem
    have hold : h.discovered q = some (o.contents discoveredSlot) :=
      discovered_eq.mpr ⟨o, ho, href, rfl⟩
    rw [hold]
    exact discovered_eq.mpr ⟨o, hcell ho, href, rfl⟩
  · intro q o' ho' href hne
    rcases hf.cell.mp ho' with ⟨-, rfl⟩ | ⟨-, hold⟩
    · exact absurd ((hobject o' rfl).2.2 href).2 hne
    · exact hq.idle q o' ((cell_take hv).mp hold) href hne
  · intro q o' hmem ho' href
    rcases hf.cell.mp ho' with ⟨rfl, -⟩ | ⟨-, hold⟩
    · exfalso
      rcases hmem with hmem | hmem | hmem
      · obtain ⟨o, ho, -⟩ := hq.member (.inl hmem)
        exact hfree ho
      · obtain ⟨o, ho, -⟩ := hq.member (.inr hmem)
        exact hfree ho
      · -- the handler's variable holds no pointer to free memory
        have hbase := hv.base_pos
        have hptr : h.Pointer h.handlerRef := by
          rw [← hmem]
          exact ⟨by omega, by omega, by omega⟩
        rcases h.getD_root 1 with hroot | hnull
        · obtain ⟨o, ho⟩ := hv.roots _ hroot hptr
          rw [show h.roots.getD 1 0 = h.base + h.used from hmem.symm] at ho
          exact hfree ho
        · exact hptr.1 hnull
    · exact hq.cleared q o' hmem ((cell_take hv).mp hold) href

end Place

theorem handler {x list ref : ℕ} {rs l' d' : List ℕ}
    (hroots : ∀ v ∈ x :: list :: ref :: rs, h.Sound v) (hpending : Chain 0 h.discovered x l')
    (hdetached : Chain 0 h.discovered list d') (hapart : ∀ p ∈ l', p ∉ d')
    (href : ref ∉ l' ∧ ref ∉ d')
    (hold : ∀ p, p ∈ l' ∨ p ∈ d' ∨ p = ref → p ∈ l ∨ p ∈ d ∨ p = h.handlerRef) :
    (h.withRoots x (list :: ref :: rs)).Queues l' d' where
  valid := hq.valid.withRoots hroots
  idle p o hp := hq.idle p o (cell_withRoots.mp hp)
  pending := hpending
  detached := hdetached
  apart := hapart
  ref := href
  cleared p o hmem hp := hq.cleared p o (hold p hmem) (cell_withRoots.mp hp)

end Queues

/-! ### Steps -/

def Pends (h : GcHeap) (id : ℕ) : Prop :=
  ∃ l p o, Chain 0 h.discovered h.pending l ∧ p ∈ l ∧ h.Cell p (.object o) ∧ o.id = id

def Clears (h h' : GcHeap) (id : ℕ) : Prop :=
  ∃ p o a o', h.Cell p (.object o) ∧ o.id = id ∧ o.descriptor.isReference = true ∧
    o.contents referentSlot ≠ 0 ∧ h'.Cell a (.object o') ∧ o'.id = id ∧
    o'.contents referentSlot = 0

/-- What one step keeps: the lists stay lists, and only a collection that clears a reference adds
it. -/
def Keeps (h h' : GcHeap) (e : ReferenceEvent) : Prop :=
  (∃ l d, h'.Queues l d) ∧
    ∀ id, h'.Pends id → h.Pends id ∨ (∃ newHeap, e = .majorGc newHeap) ∧ h.Clears h' id

variable {e : ReferenceEvent}

theorem pends_eq (hchain : Chain 0 h.discovered h.pending l) {id : ℕ} :
    h.Pends id ↔ ∃ p o, p ∈ l ∧ h.Cell p (.object o) ∧ o.id = id := by
  constructor
  · rintro ⟨l', p, o, hchain', hmem, hrest⟩
    rw [hchain'.unique hchain] at hmem
    exact ⟨p, o, hmem, hrest⟩
  · rintro ⟨p, o, hmem, hrest⟩
    exact ⟨l, p, o, hchain, hmem, hrest⟩

theorem sound_handler {x list ref : ℕ} {rs : List ℕ} (hx : h.Sound x) (hlist : h.Sound list)
    (href : h.Sound ref) (hrs : ∀ v ∈ rs, h.Sound v) : ∀ v ∈ x :: list :: ref :: rs, h.Sound v := by
  intro v hmem
  rcases mem_cons.mp hmem with rfl | hmem
  · exact hx
  · rcases mem_cons.mp hmem with rfl | hmem
    · exact hlist
    · rcases mem_cons.mp hmem with rfl | hmem
      · exact href
      · exact hrs v hmem

namespace Queues

variable (hq : h.Queues l d)

include hq

theorem sound_root (i : ℕ) : h.Sound (h.roots.getD i 0) := by
  rcases h.getD_root i with hmem | hnull
  · exact hq.valid.roots _ hmem
  · rw [hnull]
    exact fun hptr => absurd rfl hptr.1

theorem keeps_same {d' : List ℕ} (hnew : h'.Queues l d')
    (hids : ∀ q x, q ∈ l → h'.Cell q (.object x) → ∃ o, h.Cell q (.object o) ∧ o.id = x.id) :
    h.Keeps h' e := by
  refine ⟨⟨l, d', hnew⟩, fun id hpends => .inl ?_⟩
  obtain ⟨q, x, hmem, hx, hid⟩ := (pends_eq hnew.pending).mp hpends
  obtain ⟨o, ho, hsame⟩ := hids q x hmem hx
  exact (pends_eq hq.pending).mpr ⟨q, o, hmem, ho, hsame.trans hid⟩

theorem keeps_set (ho : h.Cell p (.object o)) {s : ℕ}
    (hnew : (h.update p (.object (o.set s v))).Queues l d) :
    h.Keeps (h.update p (.object (o.set s v))) e := by
  apply hq.keeps_same hnew
  intro q x _ hx
  rcases (cell_update ho).mp hx with ⟨rfl, heq⟩ | ⟨-, hold⟩
  · cases heq
    exact ⟨o, ho, rfl⟩
  · exact ⟨x, hold, rfl⟩

theorem keeps_collect {live : List ℕ} {r : Relocation} (hc : Collected h h' live r)
    (htarget : h.Target h'.base) {newHeap : ℕ} : h.Keeps h' (.majorGc newHeap) := by
  have hv := hq.valid
  obtain ⟨front, hfront, hnew⟩ := hq.collect hc htarget
  refine ⟨⟨_, _, hnew⟩, fun id hpends => ?_⟩
  obtain ⟨a, o', hmem, ho', hid⟩ := (pends_eq hnew.pending).mp hpends
  rcases mem_append.mp hmem with hmem | hmem
  · obtain ⟨p, o, -, ho, hget, hqueue⟩ := (hfront a).mp hmem
    have hclears := (enqueues_eq.mp hqueue).1
    have href := (clears_eq.mp hclears).1
    obtain ⟨x, hx, -⟩ := hc.new_object hv ho hget
    have hsame := hx.block.symm.trans ho'.block
    cases hsame
    refine .inr ⟨⟨newHeap, rfl⟩, p, o, a, _, ho, hid, href,
      ((hc.clears_iff hv ho href).mp hclears).1, hx, hid, ?_⟩
    rw [image_referent href, if_pos hclears]
  · obtain ⟨p, hpl, rfl⟩ := mem_map.mp hmem
    have hlive := hq.pending_live hc hpl
    obtain ⟨o, ho⟩ := hc.cells p hlive
    obtain ⟨x, -, hx⟩ := hc.image_cell hv hlive ho
    have hsame := hx.block.symm.trans ho'.block
    cases hsame
    exact .inl ((pends_eq hq.pending).mpr ⟨p, o, hpl, ho, hid⟩)

theorem keeps_place {b : HeapBlock} (hok : h.ReferenceOk (.place b))
    (hroom : h.used + b.size ≤ h.capacity) :
    h.Keeps ((h.take b.size).update (h.base + h.used) b) e := by
  have hv := hq.valid
  apply hq.keeps_same (hq.place hok.1 hok.2 hroom)
  intro q x hmem hx
  rcases (hq.place_fits hok.1 hok.2).cell.mp hx with ⟨rfl, -⟩ | ⟨-, hold⟩
  · obtain ⟨o, ho, -⟩ := hq.member (.inl hmem)
    have hbelow := ho.below
    omega
  · exact ⟨x, (cell_take hv).mp hold, rfl⟩

/-- The handler takes the first member of its list. -/
theorem keeps_dequeue {next : ℕ} (hnext : h.discovered h.handlerList = some next) :
    h.Keeps (h.setHandler h.pending next h.handlerList) e := by
  obtain ⟨o, ho, href, hslot⟩ := discovered_eq.mp hnext
  have hchain := hq.detached
  generalize h.handlerList = head at hchain hnext ho
  cases hchain with
  | nil => exact absurd rfl (ho.pointer hq.valid).1
  | @cons head next' d' hne hlink hrest =>
    rw [hnext] at hlink
    cases hlink
    have hnodup := (LinkedChain.Chain.cons hne hnext hrest).nodup
    have hnew : (h.setHandler h.pending next head).Queues l d' := by
      apply hq.handler _ hq.pending hrest (fun p hp hmem => hq.apart p hp (mem_cons_of_mem _ hmem))
        ⟨fun hmem => hq.apart head hmem mem_cons_self, (nodup_cons.mp hnodup).1⟩
      · rintro p (hp | hp | rfl)
        · exact .inl hp
        · exact .inr (.inl (mem_cons_of_mem _ hp))
        · exact .inr (.inl mem_cons_self)
      · apply sound_handler (hq.valid.roots _ mem_cons_self) _ fun _ => ⟨o, ho⟩
        · exact fun v hmem => hq.valid.roots v (mem_cons_of_mem _ (mem_of_mem_drop hmem))
        · rw [← hslot]
          exact hq.valid.fields head o _ ho (o.reference_slots href).2.1
    exact hq.keeps_same hnew fun q x _ hx => ⟨x, cell_withRoots.mp hx, rfl⟩

theorem step (hok : h.ReferenceOk e) (hstep : h.referenceStep e = some h') : h.Keeps h' e := by
  have hpending : h.Sound h.pending := hq.valid.roots _ mem_cons_self
  have hdrop : ∀ v ∈ h.roots.drop 2, h.Sound v := fun v hmem =>
    hq.valid.roots v (mem_cons_of_mem _ (mem_of_mem_drop hmem))
  have hnull : h.Sound 0 := fun hptr => absurd rfl hptr.1
  cases e with
  | majorGc newHeap =>
    obtain ⟨h'', live, r, hgc, rfl, hc⟩ := majorGc_spec hq.valid hok
    have hsame : some h' = some h'' := hstep.symm.trans hgc
    cases hsame
    exact hq.keeps_collect hc hok
  | place b =>
    unfold referenceStep at hstep
    by_cases hroom : h.used + b.size ≤ h.capacity
    · simp only [if_pos hroom, Option.some.injEq] at hstep
      rw [← hstep]
      exact hq.keeps_place hok hroom
    · simp only [if_neg hroom] at hstep
      cases hstep
  | replace p b =>
    obtain ⟨c, hp, hr, hsame⟩ := hok
    cases hstep
    apply hq.keeps_same (hq.replace hp hr hsame)
    intro q x _ hx
    rcases (cell_update hp).mp hx with ⟨rfl, rfl⟩ | ⟨-, hold⟩
    · obtain ⟨⟨o, rfl⟩, -⟩ := hr.object x rfl
      obtain ⟨hid, -⟩ := hsame o x rfl rfl
      exact ⟨o, hp, hid.symm⟩
    · exact ⟨x, hold, rfl⟩
  | setRoots roots =>
    cases hstep
    have hroots := sound_handler hpending (hq.sound_root 0) (hq.sound_root 1) hok
    have hnew := hq.handler hroots hq.pending hq.detached hq.apart hq.ref fun p hp => hp
    exact hq.keeps_same hnew fun q x _ hx => ⟨x, cell_withRoots.mp hx, rfl⟩
  | construct obj referent =>
    obtain ⟨hsound, ⟨hne, hlists⟩, hfirst⟩ := hok
    obtain ⟨o, ho, rfl⟩ := Option.map_eq_some_iff.mp hstep
    have ho := objectAt_eq.mp ho
    apply hq.keeps_set ho (hq.set ho hsound _ _)
    · exact fun heq => absurd heq.symm discoveredSlot_ne
    · exact fun _ _ =>
        ⟨hfirst o ho, hlists l (.inl hq.pending), hlists d (.inr hq.detached), hne⟩
  | clear0 obj =>
    obtain ⟨o, ho, rfl⟩ := Option.map_eq_some_iff.mp hstep
    have ho := objectAt_eq.mp ho
    apply hq.keeps_set ho (hq.set ho hnull _ _)
    · exact fun heq => absurd heq.symm discoveredSlot_ne
    · exact fun _ hne => absurd rfl hne
  | getAndClear =>
    cases hstep
    have hroots := sound_handler hnull hpending (hq.sound_root 1) hdrop
    have hnew : (h.setHandler 0 h.pending h.handlerRef).Queues [] l := by
      apply hq.handler hroots .nil hq.pending (fun p hp => absurd hp not_mem_nil)
        ⟨not_mem_nil, hq.ref.1⟩
      rintro p (hp | hp | hp)
      · cases hp
      · exact .inl hp
      · exact .inr (.inr hp)
    refine ⟨⟨_, _, hnew⟩, fun id hpends => ?_⟩
    obtain ⟨p, -, hmem, -⟩ := (pends_eq hnew.pending).mp hpends
    cases hmem
  | dequeue =>
    obtain ⟨next, hnext, rfl⟩ := Option.map_eq_some_iff.mp hstep
    exact hq.keeps_dequeue hnext
  | unlink =>
    obtain ⟨o, ho, rfl⟩ := Option.map_eq_some_iff.mp hstep
    have ho := objectAt_eq.mp ho
    apply hq.keeps_set ho (hq.set ho hnull _ _)
    · exact fun _ => ⟨rfl, hq.ref⟩
    · exact fun heq => absurd heq discoveredSlot_ne

end Queues

/-! ### Runs -/

structure ReferenceStart (h : GcHeap) : Prop where
  valid : h.Valid
  pending : h.pending = 0
  list : h.handlerList = 0
  ref : h.handlerRef = 0
  links : ∀ p o, h.Cell p (.object o) → o.descriptor.isReference = true →
    o.contents discoveredSlot = 0

theorem ReferenceStart.queues (hs : h.ReferenceStart) : h.Queues [] [] where
  valid := hs.valid
  idle p o ho href hne := absurd (hs.links p o ho href) hne
  pending := by
    rw [hs.pending]
    exact .nil
  detached := by
    rw [hs.list]
    exact .nil
  apart p hp := absurd hp not_mem_nil
  ref := ⟨not_mem_nil, not_mem_nil⟩
  cleared p o hmem ho _ := by
    have hpointer := (ho.pointer hs.valid).1
    rcases hmem with hmem | hmem | hmem
    · cases hmem
    · cases hmem
    · exact absurd (hmem.trans hs.ref) hpointer

open Classical in
/-- How often the object joined the pending list in a run, and how often a collection cleared it. -/
inductive Tally (id : ℕ) (h₀ : GcHeap) : GcHeap → ℕ → ℕ → Prop where
  | start : Tally id h₀ h₀ 0 0
  | step {h h' : GcHeap} {e : ReferenceEvent} {joins clears : ℕ} (hrun : Tally id h₀ h joins clears)
    (hok : h.ReferenceOk e) (hstep : h.referenceStep e = some h') : Tally id h₀ h'
      (joins + if h'.Pends id ∧ ¬ h.Pends id then 1 else 0)
      (clears + if (∃ newHeap, e = .majorGc newHeap) ∧ h.Clears h' id then 1 else 0)

theorem Tally.spec {h₀ : GcHeap} (hs : h₀.ReferenceStart) {id joins clears : ℕ}
    (ht : Tally id h₀ h joins clears) : (∃ l d, h.Queues l d) ∧ joins ≤ clears := by
  induction ht with
  | start => exact ⟨⟨_, _, hs.queues⟩, Nat.le_refl _⟩
  | @step h h' e joins clears _ hok hstep ih =>
    obtain ⟨⟨l, d, hq⟩, hle⟩ := ih
    obtain ⟨hlists, hpends⟩ := hq.step hok hstep
    refine ⟨hlists, Nat.add_le_add hle ?_⟩
    by_cases hjoins : h'.Pends id ∧ ¬ h.Pends id
    · have hclears := (hpends id hjoins.1).resolve_left hjoins.2
      rw [if_pos hjoins, if_pos hclears]
    · rw [if_neg hjoins]
      exact Nat.zero_le _

end GcHeap

/-- In every run each collection keeps the referents that are live, clears the others and puts their
references into the pending list once, behind which the old members follow; and a reference joins
the list no more often than collections clear it. -/
theorem reference_processing {h₀ h : GcHeap} (hstart : h₀.ReferenceStart)
    (hrun : Runs GcHeap.referenceStep GcHeap.ReferenceOk h₀ h) :
    (∃ l, Chain 0 h.discovered h.pending l ∧ ∀ newHeap, h.Target newHeap →
      ∃ h' live r l', h.majorGc newHeap = some h' ∧ Collected h h' live r ∧
        Chain 0 h'.discovered h'.pending l' ∧ l'.Nodup ∧
        (∀ p o, h.Cell p (.object o) → o.descriptor.isReference = true → h.Live p →
          ∃ a o', OrderedMap.get r p = some a ∧ h'.Cell a (.object o') ∧ o'.id = o.id ∧
            (h.Live (o.contents referentSlot) →
              OrderedMap.get r (o.contents referentSlot) = some (o'.contents referentSlot)) ∧
            (o.contents referentSlot ≠ 0 → ¬ h.Live (o.contents referentSlot) →
              o'.contents referentSlot = 0 ∧ a ∈ l')) ∧
        ∀ p ∈ l, ∃ a ∈ l', OrderedMap.get r p = some a) ∧
    ∀ id joins clears, h₀.Tally id h joins clears → joins ≤ clears := by
  have hqueues : ∃ l d, h.Queues l d := hrun.invariant (fun h => ∃ l d, h.Queues l d)
    ⟨_, _, hstart.queues⟩ fun _ _ _ ⟨_, _, hq⟩ hok hstep => (hq.step hok hstep).1
  obtain ⟨l, d, hq⟩ := hqueues
  have hv := hq.valid
  refine ⟨⟨l, hq.pending, fun newHeap htarget => ?_⟩, fun id joins clears ht => (ht.spec hstart).2⟩
  obtain ⟨h', live, r, hgc, rfl, hc⟩ := majorGc_spec hv htarget
  obtain ⟨front, hfront, hnew⟩ := hq.collect hc htarget
  refine ⟨h', live, r, _, hgc, hc, hnew.pending, hnew.pending.nodup, ?_, ?_⟩
  · intro p o ho href hlive
    have hp := (hc.live_iff p).mpr hlive
    obtain ⟨x, hget, hx⟩ := hc.image_cell hv hp ho
    refine ⟨_, _, hget, hx, rfl, fun hreferent => ?_, fun hne hdead => ?_⟩
    · have hkeeps : ¬ o.clears r = true := fun h =>
        ((hc.clears_iff hv ho href).mp h).2 hreferent
      obtain ⟨a, ha, hobject⟩ := hc.object_live hv ((hc.live_iff _).mpr hreferent)
      rw [image_referent href, if_neg hkeeps, hobject, ha]
    · have hclears := (hc.clears_iff hv ho href).mpr ⟨hne, hdead⟩
      have hlink : o.contents discoveredSlot = 0 := by
        by_contra hlink
        exact hne (hq.idle p o ho href hlink)
      rw [image_referent href, if_pos hclears]
      have hmem := (hfront _).mpr ⟨p, o, hp, ho, hget, enqueues_eq.mpr ⟨hclears, hlink⟩⟩
      exact ⟨rfl, mem_append_left _ hmem⟩
  · intro p hmem
    have hp := hq.pending_live hc hmem
    obtain ⟨a, ha, hobject⟩ := hc.object_live hv hp
    refine ⟨a, mem_append_right _ (mem_map.mpr ⟨p, hmem, ?_⟩), ha⟩
    rw [hobject]

def weakClass : GcClass where
  name := "java/lang/ref/WeakReference"
  kind := .ordinary
  dimensions := 0
  instanceBytes := 28
  instanceReferences := [0, 1, 2, 3]
  isReference := true
  elementBytes := 0
  references := by decide
  fits := by simp
  layout _ := ⟨rfl, prefix_refl _⟩
  dimension := objectClass.dimension

def referentBlock : HeapBlock := .object ⟨0, .mark ⟨1, 0⟩, objectClass, 0, fun _ => 0⟩

def weakBlock : HeapBlock :=
  .object ⟨1, .mark ⟨1, 0⟩, weakClass, 0, Function.update (fun _ => 0) referentSlot 8⟩

def emptyHeap : GcHeap := ⟨fun _ => none, 8, 64, 0, [], 0⟩

theorem emptyHeap_cell {p : ℕ} {b : HeapBlock} : ¬ emptyHeap.Cell p b := fun hp => nomatch hp.block

theorem emptyHeap_start : emptyHeap.ReferenceStart where
  valid := by
    refine ⟨by decide, by decide, by decide, by decide, fun _ _ hp => absurd hp emptyHeap_cell,
      fun _ _ hp => absurd hp emptyHeap_cell, fun _ _ _ _ hp => absurd hp emptyHeap_cell,
      fun _ _ _ hp => absurd hp emptyHeap_cell, nofun, fun _ _ hp => absurd hp emptyHeap_cell,
      fun _ _ _ hp => absurd hp emptyHeap_cell, fun _ _ hp => absurd hp emptyHeap_cell,
      fun p hp hptr => ?_⟩
    rw [mem_singleton.mp hp] at hptr
    exact absurd rfl hptr.1
  pending := rfl
  list := rfl
  ref := rfl
  links _ _ hp := absurd hp emptyHeap_cell

def weakHeap : GcHeap :=
  GcHeap.withRoots ((((emptyHeap.take 16).update 8 referentBlock).take 32).update 24 weakBlock) 0
    [0, 0, 24]

theorem weakHeap_runs : Runs GcHeap.referenceStep GcHeap.ReferenceOk emptyHeap weakHeap := by
  have hfirst : Runs GcHeap.referenceStep GcHeap.ReferenceOk emptyHeap
      ((emptyHeap.take 16).update 8 referentBlock) := by
    refine Runs.refl.tail (a := .place referentBlock) ⟨?_, ?_⟩ rfl
    · rintro w ⟨⟩
      rfl
    · rintro o ⟨⟩
      exact ⟨rfl, nofun, nofun⟩
  have hsecond : Runs GcHeap.referenceStep GcHeap.ReferenceOk emptyHeap
      ((((emptyHeap.take 16).update 8 referentBlock).take 32).update 24 weakBlock) := by
    refine hfirst.tail (a := .place weakBlock) ⟨?_, ?_⟩ rfl
    · rintro w ⟨⟩
      rfl
    · rintro o ⟨⟩
      refine ⟨rfl, fun s hs hptr => ?_, fun _ => ⟨fun _ => ?_, rfl⟩⟩
      · have hne : s ≠ referentSlot := by
          rintro rfl
          revert hs
          decide
        exact absurd (Function.update_of_ne hne 8 (fun _ => 0)) hptr.1
      · exact ⟨_, rfl, by decide, by decide⟩
  refine hsecond.tail (a := .setRoots [24]) (fun v hv _ => ?_) rfl
  rw [mem_singleton.mp hv]
  exact ⟨_, rfl, by decide, by decide⟩

theorem weakHeap_valid : weakHeap.Valid := by
  have hqueues : ∃ l d, weakHeap.Queues l d :=
    weakHeap_runs.invariant (fun h => ∃ l d, h.Queues l d) ⟨_, _, emptyHeap_start.queues⟩
      fun _ _ _ ⟨_, _, hq⟩ hok hstep => (hq.step hok hstep).1
  obtain ⟨l, d, hq⟩ := hqueues
  exact hq.valid

/-- A weak reference whose referent is dropped is pending after the next collection. -/
theorem reference_processing_weak : ∃ h, Runs GcHeap.referenceStep GcHeap.ReferenceOk emptyHeap h ∧
    h.pending = 8 ∧ ∃ l, Chain 0 h.discovered 8 l := by
  have hdone : (weakHeap.majorGc 8).map (·.pending) = some 8 := by decide
  obtain ⟨h, hgc, hpending⟩ := Option.map_eq_some_iff.mp hdone
  have htarget : weakHeap.Target 8 := weakHeap_valid.target_base
  have hrun : Runs GcHeap.referenceStep GcHeap.ReferenceOk emptyHeap h :=
    weakHeap_runs.tail (a := .majorGc 8) htarget hgc
  obtain ⟨⟨l', hchain, -⟩, -⟩ := reference_processing emptyHeap_start hrun
  rw [hpending] at hchain
  exact ⟨h, hrun, hpending, l', hchain⟩

end TraceJvm
