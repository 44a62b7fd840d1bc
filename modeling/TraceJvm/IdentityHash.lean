import Mathlib.Tactic.IntervalCases
import TraceJvm.HeapMonitors

/-! Identity hashes. The hash of an object lives in its mark word, which moves from the header into
a monitor when the object is first locked, and with the object when it is collected. -/
namespace TraceJvm

open Transition Function Option

/-! ### Hash codes -/

/-- `ObjNextHashCode`: the hash code and the new `hash_code_rng`. -/
def objNextHashCode (rng : UInt64) : UInt32 × UInt64 :=
  let rng := rng * 0x5DEECE66D + 0xB
  ((rng >>> 32).toUInt32, rng)

/-- The loop of `get_object_hash_code`, with a bound on the number of its rounds. -/
def drawHash : ℕ → UInt64 → Option (UInt32 × UInt64)
  | 0, _ => none
  | n + 1, rng =>
    let r := objNextHashCode rng
    if r.1 = 0 then drawHash n r.2 else some r

theorem objNextHashCode_snd (rng : UInt64) :
    (objNextHashCode rng).2.toNat = (rng.toNat * 0x5DEECE66D + 0xB) % 2 ^ 64 := by
  show (rng * 0x5DEECE66D + 0xB).toNat = _
  rw [UInt64.toNat_add, UInt64.toNat_mul]
  show (rng.toNat * 0x5DEECE66D % 2 ^ 64 + 0xB) % 2 ^ 64 = _
  omega

theorem objNextHashCode_eq_zero (rng : UInt64) :
    (objNextHashCode rng).1 = 0 ↔ (objNextHashCode rng).2.toNat < 2 ^ 32 := by
  show ((objNextHashCode rng).2 >>> 32).toUInt32 = 0 ↔ _
  generalize (objNextHashCode rng).2 = x
  have hx := x.toNat_lt
  rw [← UInt32.toNat_inj, UInt64.toNat_toUInt32, UInt64.toNat_shiftRight]
  show x.toNat >>> 32 % 2 ^ 32 = 0 ↔ _
  rw [Nat.shiftRight_eq_div_pow]
  omega

theorem generator_escapes {y z : ℕ} (hy : y < 2 ^ 32) (hz : z < 2 ^ 32)
    (hstep : (y * 0x5DEECE66D + 0xB) % 2 ^ 64 = z) :
    2 ^ 32 ≤ (z * 0x5DEECE66D + 0xB) % 2 ^ 64 := by
  obtain ⟨k, hk, hsplit⟩ : ∃ k, k ≤ 5 ∧ y * 0x5DEECE66D + 0xB = 2 ^ 64 * k + z :=
    ⟨(y * 0x5DEECE66D + 0xB) / 2 ^ 64, by omega, by omega⟩
  clear hstep
  have hvalue : z = 11 ∨ z = 1476260768 := by
    interval_cases k <;> omega
  rcases hvalue with rfl | rfl <;> decide

theorem drawHash_succ (n : ℕ) (rng : UInt64) : drawHash (n + 1) rng =
    if (objNextHashCode rng).1 = 0 then drawHash n (objNextHashCode rng).2
    else some (objNextHashCode rng) := rfl

/-- The loop ends after three rounds at most. -/
theorem drawHash_ends (rng : UInt64) : ∃ r, drawHash 3 rng = some r ∧ r.1 ≠ 0 := by
  rw [drawHash_succ]
  by_cases h₁ : (objNextHashCode rng).1 = 0
  · rw [if_pos h₁, drawHash_succ]
    generalize hx : (objNextHashCode rng).2 = x
    have hx' := (objNextHashCode_eq_zero rng).mp h₁
    rw [hx] at hx'
    by_cases h₂ : (objNextHashCode x).1 = 0
    · rw [if_pos h₂, drawHash_succ]
      have hy := (objNextHashCode_eq_zero x).mp h₂
      have hsnd := objNextHashCode_snd x
      generalize (objNextHashCode x).2 = y at hy hsnd
      have hlarge := generator_escapes hx' hy hsnd.symm
      rw [← objNextHashCode_snd] at hlarge
      have h₃ : (objNextHashCode y).1 ≠ 0 := by
        rw [Ne, objNextHashCode_eq_zero]
        omega
      rw [if_neg h₃]
      exact ⟨_, rfl, h₃⟩
    · rw [if_neg h₂]
      exact ⟨_, rfl, h₂⟩
  · rw [if_neg h₁]
    exact ⟨_, rfl, h₁⟩

/-! ### Setting the hash -/

def GcHeap.ownership (h : GcHeap) (a : ℕ) : Option (Option ℕ × UInt32) :=
  match h.memory a with
  | some (.monitor c) => some (c.tid, c.holdCount)
  | _ => none

structure Rehashed (h h' : GcHeap) (obj : ℕ) (w : MarkWord) : Prop where
  valid : h'.Valid
  object : ∀ a o', h'.Cell a (.object o') → ∃ o, h.Cell a (.object o) ∧ o'.id = o.id ∧
    (a ≠ obj → h'.memory.markWord a = h.memory.markWord a)
  stays : ∀ a o, h.Cell a (.object o) → ∃ o', h'.Cell a (.object o') ∧ o'.id = o.id
  word : h'.memory.markWord obj = some w
  ownership : ∀ a, h'.ownership a = h.ownership a

namespace GcHeap

variable {h : GcHeap} {obj a : ℕ} {o : HeapObject} {w : MarkWord} {c : HeapMonitor}

theorem rehashed_header (hv : h.Valid) (ho : h.Cell obj (.object o))
    (hw : w.flags &&& reachableFlag = 0) :
    Rehashed h (h.update obj (.object { o with header := .mark w })) obj w := by
  have hr : h.Replaces obj (.object o) (.object { o with header := .mark w }) := by
    refine ⟨rfl, ?_, ?_, nofun⟩
    · rintro _ ⟨⟩
      exact hw
    · rintro _ ⟨⟩
      exact ⟨⟨o, rfl⟩, nofun, fun s hs => hv.fields obj o s ho hs, hv.referents obj o ho⟩
  have hnew := (cell_update ho).mpr (.inl ⟨rfl, rfl⟩ :
    obj = obj ∧ .object { o with header := .mark w } = HeapBlock.object _ ∨ _)
  refine ⟨hv.update ho hr, fun p o' ho' => ?_, fun p o' ho' => ?_, hnew.markWord_mark rfl,
    fun p => ?_⟩
  · rcases (cell_update ho).mp ho' with ⟨rfl, heq⟩ | ⟨-, hold⟩
    · cases heq
      exact ⟨o, ho, rfl, fun hne => absurd rfl hne⟩
    · refine ⟨o', hold, rfl, fun _ => ?_⟩
      cases hheader' : o'.header with
      | mark w' => rw [ho'.markWord_mark hheader', hold.markWord_mark hheader']
      | expanded m =>
        obtain ⟨-, d, hd⟩ := hv.monitors p o' m hold hheader'
        have hne : m ≠ obj := by
          rintro rfl
          cases ho.block.symm.trans hd.block
        rw [hold.markWord_expanded hheader' hd,
          ho'.markWord_expanded hheader' ((cell_update ho).mpr (.inr ⟨hne, hd⟩))]
  · by_cases hp : p = obj
    · subst hp
      cases ho.block.symm.trans ho'.block
      exact ⟨_, hnew, rfl⟩
    · exact ⟨o', (cell_update ho).mpr (.inr ⟨hp, ho'⟩), rfl⟩
  · unfold GcHeap.ownership GcHeap.update
    by_cases hp : p = obj
    · rw [hp, ho.block]
      simp only [update_self]
    · simp only [update_of_ne hp]

theorem rehashed_monitor (hv : h.Valid) (ho : h.Cell obj (.object o))
    (hheader : o.header = .expanded a) (hc : h.Cell a (.monitor c))
    (hw : w.flags &&& reachableFlag = 0) :
    Rehashed h (h.update a (.monitor { c with markWord := w })) obj w := by
  have hr : h.Replaces a (.monitor c) (.monitor { c with markWord := w }) :=
    ⟨rfl, hw, nofun, fun _ _ => ⟨c, rfl⟩⟩
  have hobject : ∀ {p o'}, (h.update a (.monitor { c with markWord := w })).Cell p (.object o') ↔
      h.Cell p (.object o') := by
    intro p o'
    rw [cell_update hc]
    constructor
    · rintro (⟨-, heq⟩ | ⟨-, hold⟩)
      · cases heq
      · exact hold
    · intro hold
      refine .inr ⟨?_, hold⟩
      rintro rfl
      cases hc.block.symm.trans hold.block
  have hnew := (cell_update hc).mpr (.inl ⟨rfl, rfl⟩ :
    a = a ∧ .monitor { c with markWord := w } = HeapBlock.monitor _ ∨ _)
  refine ⟨hv.update hc hr, fun p o' ho' => ?_, fun p o' ho' => ⟨o', hobject.mpr ho', rfl⟩,
    (hobject.mpr ho).markWord_expanded hheader hnew, fun p => ?_⟩
  · have hold := hobject.mp ho'
    refine ⟨o', hold, rfl, fun hne => ?_⟩
    cases hheader' : o'.header with
    | mark w' => rw [ho'.markWord_mark hheader', hold.markWord_mark hheader']
    | expanded m =>
      obtain ⟨-, d, hd⟩ := hv.monitors p o' m hold hheader'
      have hm : m ≠ a := by
        rintro rfl
        refine hne (hv.owner_eq ho hheader hold ?_)
        unfold HeapMemory.monitorOf
        simp only [hold.block, hheader', ObjectHeader.monitor]
      rw [hold.markWord_expanded hheader' hd,
        ho'.markWord_expanded hheader' ((cell_update hc).mpr (.inr ⟨hm, hd⟩))]
  · unfold GcHeap.ownership GcHeap.update
    by_cases hp : p = a
    · rw [hp, hc.block]
      simp only [update_self]
    · simp only [update_of_ne hp]

theorem setMarkWord_spec (hv : h.Valid) (ho : h.Cell obj (.object o))
    (hw : w.flags &&& reachableFlag = 0) :
    Rehashed h { h with memory := h.memory.setMarkWord obj w } obj w := by
  cases hheader : o.header with
  | mark w₀ =>
    have hmemory : h.memory.setMarkWord obj w =
        Function.update h.memory obj (some (.object { o with header := .mark w })) := by
      unfold HeapMemory.setMarkWord
      simp only [ho.block, hheader]
    rw [hmemory]
    exact rehashed_header hv ho hw
  | expanded a =>
    obtain ⟨-, c, hc⟩ := hv.monitors obj o a ho hheader
    have hmemory : h.memory.setMarkWord obj w =
        Function.update h.memory a (some (.monitor { c with markWord := w })) := by
      unfold HeapMemory.setMarkWord
      simp only [ho.block, hheader, hc.block]
    rw [hmemory]
    exact rehashed_monitor hv ho hheader hc hw

end GcHeap

/-! ### The steps -/

structure IdentityVm where
  heap : GcHeap
  /-- `hash_code_rng` -/
  rng : UInt64
  /-- What `get_object_hash_code` has returned, by the numbers of the objects. -/
  hashes : List (ℕ × UInt32)

/-- Objects are named by their addresses. `wait` is the release with the re-acquisition. -/
inductive IdentityEvent where
  | hash (obj : ℕ)
  | acquire (t obj newHeap : ℕ)
  | resumeAcquire (t obj : ℕ)
  | release (t obj : ℕ)
  | releaseAll (t obj : ℕ)
  | reacquire (t obj : ℕ) (holdCount : UInt32)
  | resumeReacquire (t obj : ℕ) (holdCount : UInt32)
  | majorGc (newHeap : ℕ)
  /-- The rest of the program has other roots. -/
  | setRoots (pending : ℕ) (roots : List ℕ)

def IdentityVm.getObjectHashCode (s : IdentityVm) (obj : ℕ) : Option IdentityVm :=
  (s.heap.objectAt obj).bind fun o =>
    (s.heap.memory.markWord obj).bind fun w =>
      if w.hash = 0 then
        (drawHash 3 s.rng).map fun r =>
          { heap := { s.heap with memory := s.heap.memory.setMarkWord obj { w with hash := r.1 } }
            rng := r.2
            hashes := (o.id, r.1) :: s.hashes }
      else some { s with hashes := (o.id, w.hash) :: s.hashes }

def identityStep (s : IdentityVm) : IdentityEvent → Option IdentityVm
  | .hash obj => s.getObjectHashCode obj
  | .acquire t obj newHeap =>
    (s.heap.monitorAcquire t obj newHeap).map fun h => { s with heap := h }
  | .resumeAcquire t obj =>
    (s.heap.acquireLoop obj (·.acquire t)).map fun h => { s with heap := h }
  | .release t obj => some { s with heap := s.heap.monitorRelease obj (·.release t) }
  | .releaseAll t obj => some { s with heap := s.heap.monitorRelease obj (·.releaseAll t) }
  | .reacquire t obj n =>
    ((s.heap.makeHandle obj).acquireLoop obj (·.reacquire t n)).map fun h => { s with heap := h }
  | .resumeReacquire t obj n =>
    (s.heap.acquireLoop obj (·.reacquire t n)).map fun h => { s with heap := h }
  | .majorGc newHeap => (s.heap.majorGc newHeap).map fun h => { s with heap := h }
  | .setRoots pending roots => some { s with heap := s.heap.withRoots pending roots }

/-! ### Runs -/

/-- The heap is well formed, each object has a number of its own, and no hash was asked for. -/
structure IdentityVm.Start (s : IdentityVm) : Prop where
  valid : s.heap.Valid
  unique : s.heap.UniqueIds
  hashes : s.hashes = []

/-- A collection gets memory that it can use, and the roots are objects. -/
def PlacesHeap (s : IdentityVm) : IdentityEvent → Prop
  | .acquire _ _ newHeap => s.heap.Target newHeap
  | .majorGc newHeap => s.heap.Target newHeap
  | .setRoots pending roots =>
    ∀ v ∈ pending :: roots, s.heap.Pointer v → ∃ o, s.heap.Cell v (.object o)
  | _ => True

/-- The invariant of a run: what was returned for an object that is still there is its hash. -/
structure IdentityVm.Consistent (s : IdentityVm) : Prop where
  valid : s.heap.Valid
  unique : s.heap.UniqueIds
  recorded : ∀ id v, (id, v) ∈ s.hashes → v ≠ 0 ∧
    ∀ p o, s.heap.Cell p (.object o) → o.id = id →
      ∃ w, s.heap.memory.markWord p = some w ∧ w.hash = v
  same : ∀ id v v', (id, v) ∈ s.hashes → (id, v') ∈ s.hashes → v' = v

def IdentityVm.KeepsFlags (s s' : IdentityVm) : Prop :=
  ∀ a o', s'.heap.Cell a (.object o') → ∃ p o w w', s.heap.Cell p (.object o) ∧ o'.id = o.id ∧
    s.heap.memory.markWord p = some w ∧ s'.heap.memory.markWord a = some w' ∧ w'.flags = w.flags

namespace IdentityVm

variable {s s' : IdentityVm}

theorem Start.consistent (hs : s.Start) : s.Consistent where
  valid := hs.valid
  unique := hs.unique
  recorded id v hmem := by
    rw [hs.hashes] at hmem
    cases hmem
  same id v v' hmem := by
    rw [hs.hashes] at hmem
    cases hmem

theorem Consistent.carries (hs : s.Consistent) {h : GcHeap} (hc : s.heap.Carries h) :
    ({ s with heap := h } : IdentityVm).Consistent where
  valid := hc.valid
  unique := hc.unique hs.unique
  recorded id v hmem := by
    obtain ⟨hne, hhash⟩ := hs.recorded id v hmem
    refine ⟨hne, fun a o' ho' hid' => ?_⟩
    obtain ⟨p, o, ho, hid, hword⟩ := hc.object a o' ho'
    obtain ⟨w, hw, hv⟩ := hhash p o ho (hid.symm.trans hid')
    exact ⟨w, hword.trans hw, hv⟩
  same := hs.same

theorem Consistent.keepsFlags (hs : s.Consistent) {h : GcHeap} (hc : s.heap.Carries h) :
    s.KeepsFlags { s with heap := h } := by
  intro a o' ho'
  obtain ⟨p, o, ho, hid, hword⟩ := hc.object a o' ho'
  obtain ⟨w, hw, -⟩ := hs.valid.markWord_eq ho
  exact ⟨p, o, w, w, ho, hid, hw, hword.trans hw, rfl⟩

/-- Every step but the computation of a hash carries the objects over. -/
theorem step_carries (hs : s.Consistent) {e : IdentityEvent} (hok : PlacesHeap s e)
    (hstep : identityStep s e = some s') :
    (∃ obj, e = .hash obj) ∨ ∃ h, s.heap.Carries h ∧ s' = { s with heap := h } := by
  cases e with
  | hash obj => exact .inl ⟨obj, rfl⟩
  | acquire t obj newHeap =>
    obtain ⟨h, hacquire, rfl⟩ := map_eq_some_iff.mp hstep
    obtain ⟨o, ho, -⟩ := bind_eq_some_iff.mp hacquire
    obtain ⟨h', hacquire', hc, -⟩ :=
      GcHeap.monitorAcquire_spec hs.valid (GcHeap.objectAt_eq.mp ho) hok t
    rw [hacquire] at hacquire'
    cases hacquire'
    exact .inr ⟨h, hc, rfl⟩
  | resumeAcquire t obj =>
    obtain ⟨h, hloop, rfl⟩ := map_eq_some_iff.mp hstep
    exact .inr ⟨h, .acquireLoop (fun _ _ => HeapMonitor.acquire_markWord) hs.valid hloop, rfl⟩
  | release t obj =>
    cases hstep
    exact .inr ⟨_, .monitorRelease (fun _ _ => HeapMonitor.release_markWord) hs.valid obj, rfl⟩
  | releaseAll t obj =>
    cases hstep
    exact .inr ⟨_, .monitorRelease (fun _ _ => HeapMonitor.releaseAll_markWord) hs.valid obj, rfl⟩
  | reacquire t obj n =>
    obtain ⟨h, hloop, rfl⟩ := map_eq_some_iff.mp hstep
    obtain ⟨m, hm, -⟩ := map_eq_some_iff.mp hloop
    obtain ⟨o, ho, -⟩ := bind_eq_some_iff.mp hm
    have hheld := GcHeap.Carries.makeHandle hs.valid
      (GcHeap.cell_withRoots.mp (GcHeap.objectAt_eq.mp ho))
    exact .inr ⟨h, hheld.trans
      (.acquireLoop (fun _ _ => HeapMonitor.reacquire_markWord) hheld.valid hloop), rfl⟩
  | resumeReacquire t obj n =>
    obtain ⟨h, hloop, rfl⟩ := map_eq_some_iff.mp hstep
    exact .inr ⟨h, .acquireLoop (fun _ _ => HeapMonitor.reacquire_markWord) hs.valid hloop, rfl⟩
  | majorGc newHeap =>
    obtain ⟨h, hgc, rfl⟩ := map_eq_some_iff.mp hstep
    obtain ⟨h', live, r, hgc', hbase, hc⟩ := majorGc_spec hs.valid hok
    rw [hgc] at hgc'
    cases hgc'
    exact .inr ⟨h, .collected hs.valid hc (hbase ▸ hok), rfl⟩
  | setRoots pending roots =>
    cases hstep
    exact .inr ⟨_, .withRoots hs.valid hok, rfl⟩

/-- What the computation of a hash does to an object that has none, and to one that has one. -/
theorem hash_cases (hs : s.Consistent) {obj : ℕ} {o : HeapObject}
    (ho : s.heap.Cell obj (.object o)) :
    ∃ w, s.heap.memory.markWord obj = some w ∧
      ((w.hash ≠ 0 ∧ identityStep s (.hash obj) =
          some { s with hashes := (o.id, w.hash) :: s.hashes }) ∨
        w.hash = 0 ∧ ∃ v rng h, v ≠ 0 ∧ Rehashed s.heap h obj { w with hash := v } ∧
          identityStep s (.hash obj) = some ⟨h, rng, (o.id, v) :: s.hashes⟩) := by
  obtain ⟨w, hw, hflag⟩ := hs.valid.markWord_eq ho
  refine ⟨w, hw, ?_⟩
  show (_ ∧ s.getObjectHashCode obj = _) ∨ _ ∧ ∃ v rng h, _ ∧ _ ∧ s.getObjectHashCode obj = _
  unfold getObjectHashCode
  rw [GcHeap.objectAt_eq.mpr ho, bind_some, hw, bind_some]
  by_cases hzero : w.hash = 0
  · obtain ⟨r, hdraw, hne⟩ := drawHash_ends s.rng
    rw [if_pos hzero, hdraw, map_some]
    exact .inr ⟨hzero, r.1, r.2, _, hne, GcHeap.setMarkWord_spec hs.valid ho hflag, rfl⟩
  · rw [if_neg hzero]
    exact .inl ⟨hzero, rfl⟩

/-- The hash of an object is recorded. -/
theorem Consistent.record (hs : s.Consistent) {obj : ℕ} {o : HeapObject}
    (ho : s.heap.Cell obj (.object o)) {w : MarkWord} (hw : s.heap.memory.markWord obj = some w)
    (hne : w.hash ≠ 0) :
    ({ s with hashes := (o.id, w.hash) :: s.hashes } : IdentityVm).Consistent := by
  have hold : ∀ v, (o.id, v) ∈ s.hashes → v = w.hash := by
    intro v hmem
    obtain ⟨w', hw', hv⟩ := (hs.recorded o.id v hmem).2 obj o ho rfl
    rw [hw] at hw'
    cases hw'
    exact hv.symm
  refine ⟨hs.valid, hs.unique, fun id v hmem => ?_, fun id v v' hmem hmem' => ?_⟩
  · rcases List.mem_cons.mp hmem with heq | hmem
    · cases heq
      refine ⟨hne, fun p o' ho' hid => ?_⟩
      obtain rfl := hs.unique p o' obj o ho' ho hid
      exact ⟨w, hw, rfl⟩
    · exact hs.recorded id v hmem
  · rcases List.mem_cons.mp hmem with heq | hmem
    · cases heq
      rcases List.mem_cons.mp hmem' with heq' | hmem'
      · cases heq'
        rfl
      · exact hold v' hmem'
    · rcases List.mem_cons.mp hmem' with heq' | hmem'
      · cases heq'
        exact (hold v hmem).symm
      · exact hs.same id v v' hmem hmem'

/-- A hash that is set is that of an object for which nothing was returned. -/
theorem Consistent.rehash (hs : s.Consistent) {obj : ℕ} {o : HeapObject}
    (ho : s.heap.Cell obj (.object o)) {w : MarkWord} (hw : s.heap.memory.markWord obj = some w)
    (hzero : w.hash = 0) {v : UInt32} {h : GcHeap} (hr : Rehashed s.heap h obj { w with hash := v })
    (rng : UInt64) : (⟨h, rng, s.hashes⟩ : IdentityVm).Consistent where
  valid := hr.valid
  unique p o₁ q o₂ ho₁ ho₂ hid := by
    obtain ⟨x, hx, hid₁, -⟩ := hr.object p o₁ ho₁
    obtain ⟨y, hy, hid₂, -⟩ := hr.object q o₂ ho₂
    apply hs.unique p x q y hx hy
    rw [← hid₁, ← hid₂]
    exact hid
  recorded id v' hmem := by
    obtain ⟨hne, hhash⟩ := hs.recorded id v' hmem
    refine ⟨hne, fun p o' ho' hid' => ?_⟩
    obtain ⟨x, hx, hid, hword⟩ := hr.object p o' ho'
    obtain ⟨w', hw', hv'⟩ := hhash p x hx (hid.symm.trans hid')
    by_cases hp : p = obj
    · subst hp
      rw [hw] at hw'
      cases hw'
      exact absurd (hv'.symm.trans hzero) hne
    · exact ⟨w', (hword hp).trans hw', hv'⟩
  same := hs.same

theorem Consistent.step (hs : s.Consistent) {e : IdentityEvent} (hok : PlacesHeap s e)
    (hstep : identityStep s e = some s') : s'.Consistent := by
  rcases step_carries hs hok hstep with ⟨obj, rfl⟩ | ⟨h, hc, rfl⟩
  · obtain ⟨o, ho, -⟩ := bind_eq_some_iff.mp hstep
    have ho := GcHeap.objectAt_eq.mp ho
    obtain ⟨w, hw, ⟨hne, hresult⟩ | ⟨hzero, v, rng, h, hne, hr, hresult⟩⟩ := hash_cases hs ho
    · rw [hstep] at hresult
      cases hresult
      exact hs.record ho hw hne
    · rw [hstep] at hresult
      cases hresult
      obtain ⟨o', ho', hid⟩ := hr.stays obj o ho
      have hset := hs.rehash ho hw hzero hr rng
      rw [← hid]
      exact hset.record ho' hr.word hne
  · exact hs.carries hc

theorem Consistent.step_keepsFlags (hs : s.Consistent) {e : IdentityEvent} (hok : PlacesHeap s e)
    (hstep : identityStep s e = some s') : s.KeepsFlags s' := by
  rcases step_carries hs hok hstep with ⟨obj, rfl⟩ | ⟨h, hc, rfl⟩
  · obtain ⟨o, ho, -⟩ := bind_eq_some_iff.mp hstep
    have ho := GcHeap.objectAt_eq.mp ho
    obtain ⟨w, hw, ⟨-, hresult⟩ | ⟨-, v, rng, h, -, hr, hresult⟩⟩ := hash_cases hs ho
    · rw [hstep] at hresult
      cases hresult
      exact hs.keepsFlags (.refl hs.valid)
    · rw [hstep] at hresult
      cases hresult
      intro a o' ho'
      obtain ⟨x, hx, hid, hword⟩ := hr.object a o' ho'
      by_cases ha : a = obj
      · subst ha
        exact ⟨a, x, w, _, hx, hid, hw, hr.word, rfl⟩
      · obtain ⟨w', hw', -⟩ := hs.valid.markWord_eq hx
        exact ⟨a, x, w', w', hx, hid, hw', (hword ha).trans hw', rfl⟩
  · exact hs.keepsFlags hc

end IdentityVm

def IdentityVm.inPlace (s : IdentityVm) : IdentityEvent → Bool
  | .acquire _ _ newHeap => newHeap = s.heap.base
  | .majorGc newHeap => newHeap = s.heap.base
  | .setRoots _ _ => false
  | _ => true

theorem IdentityVm.Start.runs {s₀ s : IdentityVm} (hstart : s₀.Start)
    (hrun : Runs identityStep (fun s e => s.inPlace e = true) s₀ s) :
    Runs identityStep PlacesHeap s₀ s := by
  induction hrun with
  | refl => exact .refl
  | tail _ hok hstep ih =>
    rename_i u v e _
    have hu : u.Consistent := ih.invariant IdentityVm.Consistent hstart.consistent
      fun _ _ _ hinv hok hstep => hinv.step hok hstep
    refine ih.tail ?_ hstep
    cases e with
    | acquire t obj newHeap | majorGc newHeap =>
      obtain rfl : newHeap = u.heap.base := of_decide_eq_true hok
      exact hu.valid.target_base
    | setRoots pending roots => cases hok
    | _ => trivial

def GcHeap.HasObject (h : GcHeap) (id : ℕ) : Prop := ∃ p o, h.Cell p (.object o) ∧ o.id = id

theorem GcHeap.Live.hasObject {h : GcHeap} (hv : h.Valid) {h' : GcHeap} {live : List ℕ}
    {r : Relocation} (hc : Collected h h' live r) {p : ℕ} {o : HeapObject} (hp : h.Live p)
    (ho : h.Cell p (.object o)) : h'.HasObject o.id := by
  obtain ⟨a, ha, -⟩ := hc.object_live hv ((hc.live_iff p).mpr hp)
  obtain ⟨x, hx, -⟩ := hc.new_object hv ho ha
  exact ⟨a, _, hx, rfl⟩

/-- In every run the hash of an object is returned whenever it is asked for, is not zero and stays
the same; the flags of the objects stay as well, through inflation and collections, and no hash
changes who holds a monitor. -/
theorem identity_hash_stable {s₀ s : IdentityVm} (hstart : s₀.Start)
    (hrun : Runs identityStep PlacesHeap s₀ s) :
    (∀ id v v', (id, v) ∈ s.hashes → (id, v') ∈ s.hashes → v' = v ∧ v ≠ 0) ∧
    (∀ obj o, s.heap.Cell obj (.object o) → ∃ s' v, identityStep s (.hash obj) = some s' ∧
      s'.hashes = (o.id, v) :: s.hashes ∧ s'.heap.HasObject o.id ∧
      ∀ a, s'.heap.ownership a = s.heap.ownership a) ∧
    (∀ e s', PlacesHeap s e → identityStep s e = some s' → s.KeepsFlags s') ∧
    (∀ t obj newHeap o, s.heap.Target newHeap → s.heap.Cell obj (.object o) →
      ∃ s', identityStep s (.acquire t obj newHeap) = some s' ∧ s'.heap.HasObject o.id) ∧
    ∀ newHeap, s.heap.Target newHeap → ∃ s', identityStep s (.majorGc newHeap) = some s' ∧
      ∀ p o, s.heap.Live p → s.heap.Cell p (.object o) → s'.heap.HasObject o.id := by
  have hs : s.Consistent := hrun.invariant IdentityVm.Consistent hstart.consistent
    fun _ _ _ hinv hok hstep => hinv.step hok hstep
  refine ⟨fun id v v' hmem hmem' => ⟨hs.same id v v' hmem hmem', (hs.recorded id v hmem).1⟩,
    fun obj o ho => ?_, fun e s' hok hstep => hs.step_keepsFlags hok hstep,
    fun t obj newHeap o htarget ho => ?_, fun newHeap htarget => ?_⟩
  · obtain ⟨w, hw, ⟨hne, hresult⟩ | ⟨hzero, v, rng, h, hne, hr, hresult⟩⟩ :=
      IdentityVm.hash_cases hs ho
    · exact ⟨_, w.hash, hresult, rfl, ⟨obj, o, ho, rfl⟩, fun _ => rfl⟩
    · obtain ⟨o', ho', hid⟩ := hr.stays obj o ho
      exact ⟨_, v, hresult, rfl, ⟨obj, o', ho', hid⟩, hr.ownership⟩
  · obtain ⟨h, hacquire, -, a, o', ho', hid⟩ := GcHeap.monitorAcquire_spec hs.valid ho htarget t
    refine ⟨{ s with heap := h }, ?_, a, o', ho', hid⟩
    show (s.heap.monitorAcquire t obj newHeap).map _ = _
    rw [hacquire]
    rfl
  · obtain ⟨h, live, r, hgc, -, hc⟩ := majorGc_spec hs.valid htarget
    refine ⟨{ s with heap := h }, ?_, fun p o hp ho => hp.hasObject hs.valid hc ho⟩
    show (s.heap.majorGc newHeap).map _ = _
    rw [hgc]
    rfl

def lockObject : HeapObject := ⟨0, .mark ⟨1, 0⟩, objectClass, 0, fun _ => 0⟩

def lockVm : IdentityVm where
  heap := ⟨update (fun _ => none) 8 (some (.object lockObject)), 8, 64, 16, [8], 0⟩
  rng := 0
  hashes := []

theorem lockVm_cell {p : ℕ} {b : HeapBlock} (hp : lockVm.heap.Cell p b) :
    p = 8 ∧ b = .object lockObject := by
  have hblock : update (fun _ => none) 8 (some (HeapBlock.object lockObject)) p = some b :=
    hp.block
  by_cases h : p = 8
  · rw [h, update_self] at hblock
    exact ⟨h, (some.inj hblock).symm⟩
  · rw [update_of_ne h] at hblock
    cases hblock

theorem lockVm_start : lockVm.Start where
  valid := by
    have hobject : ∀ {p o}, lockVm.heap.Cell p (.object o) → o = lockObject := by
      intro p o hp
      cases (lockVm_cell hp).2
      rfl
    refine ⟨by decide, by decide, by decide, by decide, fun p b hp => ?_, fun p b hp => ?_,
      fun p b q c hp hq hlt => ?_, fun p o a hp hheader => ?_, fun p q a _ _ hp hq => ?_,
      fun p b hp => ?_, fun p o s hp hs => ?_, fun p o hp href => ?_, fun p hmem hptr => ?_⟩
    · rw [(lockVm_cell hp).1]
    · rw [(lockVm_cell hp).1, (lockVm_cell hp).2]
      decide
    · have hp := (lockVm_cell hp).1
      have hq := (lockVm_cell hq).1
      omega
    · rw [hobject hp] at hheader
      cases hheader
    · obtain ⟨b, hp⟩ := hp
      obtain ⟨c, hq⟩ := hq
      rw [(lockVm_cell hp).1, (lockVm_cell hq).1]
    · rw [(lockVm_cell hp).2]
      rintro w ⟨⟩
      rfl
    · rw [hobject hp] at hs
      cases hs
    · rw [hobject hp] at href
      cases href
    · rcases List.mem_cons.mp hmem with rfl | hmem
      · exact absurd rfl hptr.1
      · rw [List.mem_singleton.mp hmem]
        exact ⟨lockObject, rfl, by decide, by decide⟩
  unique p o q o' hp hq _ := by rw [(lockVm_cell hp).1, (lockVm_cell hq).1]
  hashes := rfl

/-- After a hash and an inflation, a collection and a second hash. -/
theorem identity_hash_stable_lock : ∃ s, Runs identityStep PlacesHeap lockVm s ∧
    s.hashes = [(0, 64), (0, 64)] ∧ ∀ v, (0, v) ∈ s.hashes → v = 64 ∧ (64 : UInt32) ≠ 0 := by
  obtain ⟨s, hchecked, hhashes⟩ := map_eq_some_iff.mp (show (checkedRun identityStep
    IdentityVm.inPlace lockVm [.hash 8, .acquire 1 8 8, .majorGc 8, .hash 8]).map (·.hashes) =
      some [(0, 64), (0, 64)] by decide)
  have hmem : (0, 64) ∈ s.hashes := by
    rw [hhashes]
    decide
  have hrun := lockVm_start.runs (runs_of_checkedRun hchecked)
  exact ⟨s, hrun, hhashes, fun v hv => (identity_hash_stable lockVm_start hrun).1 0 64 v hmem hv⟩

end TraceJvm
