import TraceJvm.HeapUpdates
import TraceJvm.MonitorSafety

/-! `monitors.c` over the heap: the mark word moves from the header of an object into a monitor when
the object is first locked, and objects keep their mark words. -/
namespace TraceJvm

open Placement List

namespace HeapMonitor

/-- The body of the acquiring loop; `none` where the monitor is contended. -/
def acquire (c : HeapMonitor) (t : ℕ) : Option HeapMonitor :=
  if c.tid = none then some { c with tid := some t, holdCount := 1 }
  else if c.tid = some t then some { c with holdCount := c.holdCount + 1 }
  else none

/-- `monitor_release`; `none` where it fails. -/
def release (c : HeapMonitor) (t : ℕ) : Option HeapMonitor :=
  if c.tid ≠ some t then none
  else if c.holdCount = 0 then none
  else if c.holdCount - 1 = 0 then some { c with tid := none, holdCount := 0 }
  else some { c with holdCount := c.holdCount - 1 }

/-- `monitor_release_all_hold_count`; `none` where it returns 0. -/
def releaseAll (c : HeapMonitor) (t : ℕ) : Option HeapMonitor :=
  if c.tid ≠ some t then none
  else if c.holdCount = 0 then none
  else some { c with tid := none, holdCount := 0 }

/-- The body of the loop of `monitor_reacquire_hold_count`. If the thread owns the monitor the call
fails. -/
def reacquire (c : HeapMonitor) (t : ℕ) (n : UInt32) : Option HeapMonitor :=
  if c.tid = none then some { c with tid := some t, holdCount := n }
  else if c.tid = some t then some c
  else none

/-- The monitor as the transitions of the threads know it, its mark word as one number. -/
def toData (c : HeapMonitor) : MonitorData :=
  ⟨c.markWord.flags.toNat + c.markWord.hash.toNat * 2 ^ 32, c.tid, c.holdCount.toNat⟩

theorem acquire_toData (c : HeapMonitor) (t : ℕ) :
    (c.acquire t).map toData = c.toData.acquire t := by
  unfold acquire MonitorData.acquire
  by_cases hfree : c.tid = none
  · rw [if_pos hfree, if_pos (show c.toData.tid = none from hfree)]
    rfl
  · rw [if_neg hfree, if_neg (show c.toData.tid ≠ none from hfree)]
    by_cases hown : c.tid = some t
    · rw [if_pos hown, if_pos (show c.toData.tid = some t from hown)]
      simp only [Option.map_some, toData, UInt32.toNat_add]
      rfl
    · rw [if_neg hown, if_neg (show c.toData.tid ≠ some t from hown)]
      rfl

theorem monitor_exitHandler (s : MonitorVm) (obj : ℕ) :
    (s.monitorExitHandler obj).monitor = s.monitor := by
  unfold MonitorVm.monitorExitHandler
  split <;> rfl

theorem monitor_finishWait (s : MonitorVm) (t : ℕ) : (s.finishWait t).monitor = s.monitor := by
  unfold MonitorVm.finishWait
  split <;> rfl

/-- The operations on a monitor of the heap are those of the threads. -/
theorem refines_monitorVm (c : HeapMonitor) (s : MonitorVm) (t obj : ℕ) (n : UInt32)
    (ready : Bool) :
    let s := s.setMonitor obj c.toData
    (s.acquireLoop t obj ready).map (·.monitor obj) = some (some ((c.acquire t).getD c).toData) ∧
    (s.monitorRelease t obj).monitor obj = some ((c.release t).getD c).toData ∧
    (s.monitorReleaseAllHoldCount t obj).2.monitor obj = some ((c.releaseAll t).getD c).toData ∧
    (s.reacquireLoop t obj n.toNat ready).map (·.monitor obj) =
      if c.tid = some t then none else some (some ((c.reacquire t n).getD c).toData) := by
  intro s
  have hset (s : MonitorVm) (d : MonitorData) : (s.setMonitor obj d).monitor obj = some d :=
    (s.monitor_setMonitor obj obj d).trans (if_pos rfl)
  have h : s.monitor obj = some c.toData := hset _ _
  have htid : c.toData.tid = c.tid := rfl
  have hcount : c.toData.holdCount = c.holdCount.toNat := rfl
  have hzero (n : UInt32) : n.toNat = 0 ↔ n = 0 := UInt32.toNat_inj (b := 0)
  refine ⟨?_, ?_, ?_, ?_⟩
  · simp only [MonitorVm.acquireLoop, h, ← acquire_toData]
    cases c.acquire t with
    | none => exact congrArg some h
    | some d => exact congrArg some (hset _ _)
  · simp only [MonitorVm.monitorRelease, h, release, htid, hcount, hzero]
    split
    · exact h
    split
    · exact h
    rename_i hpos
    have hone : c.holdCount.toNat - 1 = (c.holdCount - 1).toNat := by
      refine (UInt32.toNat_sub_of_le c.holdCount 1 (UInt32.le_iff_toNat_le.mpr ?_)).symm
      exact Nat.one_le_iff_ne_zero.mpr fun hn => hpos ((hzero _).mp hn)
    simp only [hone, hzero]
    split
    · exact (congrFun (monitor_exitHandler _ obj) obj).trans (hset _ _)
    · exact hset _ _
  · simp only [MonitorVm.monitorReleaseAllHoldCount, h, releaseAll, htid, hcount, hzero]
    split
    · exact h
    split
    · exact h
    · exact (congrFun (monitor_exitHandler _ obj) obj).trans (hset _ _)
  · simp only [MonitorVm.reacquireLoop, h, reacquire]
    by_cases hfree : c.tid = none
    · rw [if_pos (htid.trans hfree), if_pos hfree, if_neg (by simp [hfree])]
      exact congrArg some ((congrFun (monitor_finishWait _ t) obj).trans (hset _ _))
    · rw [if_neg (htid ▸ hfree), if_neg hfree]
      by_cases hown : c.tid = some t
      · rw [if_pos (htid.trans hown), if_pos hown]
        rfl
      · rw [if_neg (htid ▸ hown), if_neg hown, if_neg hown]
        exact congrArg some h

variable {c c' : HeapMonitor} {t : ℕ}

theorem acquire_markWord (h : c.acquire t = some c') : c'.markWord = c.markWord := by
  unfold acquire at h
  split_ifs at h <;> cases h <;> rfl

theorem release_markWord (h : c.release t = some c') : c'.markWord = c.markWord := by
  unfold release at h
  split_ifs at h <;> cases h <;> rfl

theorem releaseAll_markWord (h : c.releaseAll t = some c') : c'.markWord = c.markWord := by
  unfold releaseAll at h
  split_ifs at h
  cases h
  rfl

theorem reacquire_markWord {n : UInt32} (h : c.reacquire t n = some c') :
    c'.markWord = c.markWord := by
  unfold reacquire at h
  split_ifs at h <;> cases h <;> rfl

end HeapMonitor

namespace GcHeap

/-- `inspect_monitor` with the address of the monitor. -/
def inspectMonitor (h : GcHeap) (obj : ℕ) : Option (ℕ × HeapMonitor) :=
  (h.objectAt obj).bind fun o =>
    match o.header with
    | .mark _ => none
    | .expanded a =>
      match h.memory a with
      | some (.monitor c) => some (a, c)
      | _ => none

def updateMonitor (h : GcHeap) (a : ℕ) : Option HeapMonitor → GcHeap
  | some c => h.update a (.monitor c)
  | none => h

def makeHandle (h : GcHeap) (obj : ℕ) : GcHeap := h.withRoots h.pending (obj :: h.roots)

def dropHandle (h : GcHeap) (obj : ℕ) : GcHeap := h.withRoots h.pending (h.roots.erase obj)

/-- The acquiring loop up to a yield, at which the handle is kept. Without a monitor an assertion
fails. -/
def acquireLoop (h : GcHeap) (obj : ℕ) (f : HeapMonitor → Option HeapMonitor) : Option GcHeap :=
  (h.inspectMonitor obj).map fun m =>
    match f m.2 with
    | some c => (h.update m.1 (.monitor c)).dropHandle obj
    | none => h

/-- The monitor at `a` is set up and exchanged for the header of the object. If the header is not
the one that was fetched, the loop goes on with the one that is there. -/
def installMonitor (h : GcHeap) (obj a : ℕ) (fetched : MarkWord) : Option GcHeap :=
  let h := h.update a (.monitor ⟨none, 0, fetched⟩)
  (h.objectAt obj).map fun o =>
    if o.header = .mark fetched then h.update obj (.object { o with header := .expanded a })
    else
      match o.header with
      | .mark w =>
        (h.update a (.monitor ⟨none, 0, w⟩)).update obj (.object { o with header := .expanded a })
      | .expanded _ => h

/-- `monitor_acquire` up to its first yield. The mark word is fetched before the monitor is
allocated, which can collect. -/
def monitorAcquire (h : GcHeap) (t obj newHeap : ℕ) : Option GcHeap :=
  (h.objectAt obj).bind fun o =>
    let held := h.makeHandle obj
    match o.header with
    | .expanded _ => held.acquireLoop obj (·.acquire t)
    | .mark fetched =>
      (held.bumpAllocate 16 newHeap).bind fun q =>
        let obj := q.2.roots.headD 0
        match q.1 with
        | none => some (q.2.dropHandle obj)
        | some a =>
          (q.2.installMonitor obj a fetched).bind fun h => h.acquireLoop obj (·.acquire t)

/-- `monitor_release` and `monitor_release_all_hold_count` without waking anyone. -/
def monitorRelease (h : GcHeap) (obj : ℕ) (f : HeapMonitor → Option HeapMonitor) : GcHeap :=
  match h.inspectMonitor obj with
  | none => h
  | some m => h.updateMonitor m.1 (f m.2)

/-! ### Objects keep their mark words -/

namespace Cell

variable {h : GcHeap} {p : ℕ} {o : HeapObject}

theorem markWord_mark (hp : h.Cell p (.object o)) {w : MarkWord} (hheader : o.header = .mark w) :
    h.memory.markWord p = some w := by
  unfold HeapMemory.markWord
  simp only [hp.block, hheader]

theorem markWord_expanded (hp : h.Cell p (.object o)) {a : ℕ} {c : HeapMonitor}
    (hheader : o.header = .expanded a) (ha : h.Cell a (.monitor c)) :
    h.memory.markWord p = some c.markWord := by
  unfold HeapMemory.markWord
  simp only [hp.block, hheader, ha.block]

end Cell

def UniqueIds (h : GcHeap) : Prop :=
  ∀ p o q o', h.Cell p (.object o) → h.Cell q (.object o') → o.id = o'.id → p = q

/-- The objects of the second heap are objects of the first, with their mark words. -/
structure Carries (h h' : GcHeap) : Prop where
  valid : h'.Valid
  object : ∀ a o', h'.Cell a (.object o') → ∃ p o, h.Cell p (.object o) ∧ o'.id = o.id ∧
    h'.memory.markWord a = h.memory.markWord p
  unique : h.UniqueIds → h'.UniqueIds

namespace Carries

variable {h h' h'' : GcHeap}

theorem trans (hc : h.Carries h') (hc' : h'.Carries h'') : h.Carries h'' where
  valid := hc'.valid
  object a o ho := by
    obtain ⟨p, o', hp, hid, hword⟩ := hc'.object a o ho
    obtain ⟨q, o'', hq, hid', hword'⟩ := hc.object p o' hp
    exact ⟨q, o'', hq, hid.trans hid', hword.trans hword'⟩
  unique hu := hc'.unique (hc.unique hu)

theorem of_cells (hv : h'.Valid) (hcells : ∀ a o', h'.Cell a (.object o') → ∃ o,
    h.Cell a (.object o) ∧ o'.id = o.id ∧ h'.memory.markWord a = h.memory.markWord a) :
    h.Carries h' where
  valid := hv
  object a o' ho' := by
    obtain ⟨o, ho, hrest⟩ := hcells a o' ho'
    exact ⟨a, o, ho, hrest⟩
  unique hu p o q o' hp hq hid := by
    obtain ⟨x, hx, hid₁, -⟩ := hcells p o hp
    obtain ⟨y, hy, hid₂, -⟩ := hcells q o' hq
    apply hu p x q y hx hy
    rw [← hid₁, ← hid₂]
    exact hid

theorem refl (hv : h.Valid) : h.Carries h :=
  of_cells hv fun _ o' ho' => ⟨o', ho', rfl, rfl⟩

theorem withRoots (hv : h.Valid) {x : ℕ} {rs : List ℕ}
    (hrs : ∀ v ∈ x :: rs, h.Pointer v → ∃ o, h.Cell v (.object o)) :
    h.Carries (h.withRoots x rs) :=
  of_cells (hv.withRoots hrs) fun _ o' ho' => ⟨o', cell_withRoots.mp ho', rfl, rfl⟩

theorem take (hv : h.Valid) {size : ℕ} (hdvd : 8 ∣ size) (hsize : h.used + size ≤ h.capacity) :
    h.Carries (h.take size) := by
  refine of_cells (hv.take hdvd hsize) fun a o ho => ?_
  have hold := (cell_take hv).mp ho
  refine ⟨o, hold, rfl, ?_⟩
  cases hheader : o.header with
  | mark w => rw [ho.markWord_mark hheader, hold.markWord_mark hheader]
  | expanded m =>
    obtain ⟨-, c, hc⟩ := hv.monitors a o m hold hheader
    rw [ho.markWord_expanded hheader ((cell_take hv).mpr hc), hold.markWord_expanded hheader hc]

theorem image_markWord (hv : h.Valid) {live : List ℕ} {r : Relocation} (hc : Collected h h' live r)
    {p a : ℕ} {o : HeapObject} {x : ℕ} (hp : p ∈ live) (ho : h.Cell p (.object o))
    (hnew : h'.Cell a (.object (o.image r x))) :
    h'.memory.markWord a = h.memory.markWord p := by
  rcases hc.image_header hp ho x with ⟨w, hheader, hnew'⟩ | ⟨m, m', hheader, -, hget, hnew'⟩
  · rw [hnew.markWord_mark hnew', ho.markWord_mark hheader]
  · obtain ⟨-, c, hcell⟩ := hv.monitors p o m ho hheader
    rw [hnew.markWord_expanded hnew' (hc.new_monitor hv hcell hget),
      ho.markWord_expanded hheader hcell]

theorem collected (hv : h.Valid) {live : List ℕ} {r : Relocation} (hc : Collected h h' live r)
    (htarget : h.Target h'.base) : h.Carries h' where
  valid := hc.valid hv htarget
  object a o' ho' := by
    rcases hc.cell_cases hv ho' with ⟨p, o, x, hp, ho, -, heq, -⟩ | ⟨-, -, c, -, -, -, -, heq⟩
    · cases heq
      exact ⟨p, o, ho, rfl, image_markWord hv hc hp ho ho'⟩
    · cases heq
  unique hu a o₁ a' o₂ ho₁ ho₂ hid := by
    rcases hc.cell_cases hv ho₁ with ⟨p, o, x, hp, ho, hget, heq, -⟩ | ⟨-, -, c, -, -, -, -, heq⟩
    · rcases hc.cell_cases hv ho₂ with
        ⟨q, o', y, hq, ho', hget', heq', -⟩ | ⟨-, -, c, -, -, -, -, heq'⟩
      · cases heq
        cases heq'
        obtain rfl := hu p o q o' ho ho' hid
        rw [hget] at hget'
        exact Option.some.inj hget'
      · cases heq'
    · cases heq

theorem gathered (hv : h.Valid) (hg : h.Gathered h') : h.Carries h' := by
  rcases hg with rfl | ⟨htarget, live, r, hc⟩
  · exact refl hv
  · exact collected hv hc htarget

end Carries

/-! ### The operations -/

section Operations

variable {h h' : GcHeap} {obj a : ℕ} {o : HeapObject} {c c' : HeapMonitor}

theorem inspectMonitor_cell (hv : h.Valid) {m : ℕ × HeapMonitor}
    (hm : h.inspectMonitor obj = some m) : h.Cell m.1 (.monitor m.2) := by
  obtain ⟨o, ho, hfound⟩ := Option.bind_eq_some_iff.mp hm
  have hcell := objectAt_eq.mp ho
  cases hheader : o.header with
  | mark w =>
    simp only [hheader] at hfound
    cases hfound
  | expanded a =>
    obtain ⟨-, c, hc⟩ := hv.monitors obj o a hcell hheader
    simp only [hheader, hc.block] at hfound
    cases hfound
    exact hc

theorem inspectMonitor_expanded (hv : h.Valid) (ho : h.Cell obj (.object o))
    (hheader : o.header = .expanded a) : ∃ c, h.inspectMonitor obj = some (a, c) := by
  obtain ⟨-, c, hc⟩ := hv.monitors obj o a ho hheader
  refine ⟨c, ?_⟩
  unfold inspectMonitor
  rw [objectAt_eq.mpr ho, Option.bind_some]
  simp only [hheader, hc.block]

namespace Carries

/-- The owner and the hold count of a monitor change. -/
theorem update_monitor (hv : h.Valid) (hc : h.Cell a (.monitor c))
    (hword : c'.markWord = c.markWord) : h.Carries (h.update a (.monitor c')) := by
  have hr : h.Replaces a (.monitor c) (.monitor c') := by
    refine ⟨rfl, ?_, nofun, fun _ _ => ⟨c, rfl⟩⟩
    show c'.markWord.flags &&& reachableFlag = 0
    rw [hword]
    exact hv.unflagged a _ hc
  refine of_cells (hv.update hc hr) fun p o ho => ?_
  rcases (cell_update hc).mp ho with ⟨-, heq⟩ | ⟨hne, hold⟩
  · cases heq
  · refine ⟨o, hold, rfl, ?_⟩
    cases hheader : o.header with
    | mark w => rw [ho.markWord_mark hheader, hold.markWord_mark hheader]
    | expanded m =>
      obtain ⟨-, d, hd⟩ := hv.monitors p o m hold hheader
      rw [hold.markWord_expanded hheader hd]
      by_cases hm : m = a
      · subst hm
        cases hc.block.symm.trans hd.block
        rw [ho.markWord_expanded hheader ((cell_update hc).mpr (.inl ⟨rfl, rfl⟩)), hword]
      · rw [ho.markWord_expanded hheader ((cell_update hc).mpr (.inr ⟨hm, hd⟩))]

theorem place_monitor (hv : h.Valid) (hf : h.Fits a (.monitor c)) :
    h.Carries (h.update a (.monitor c)) := by
  refine of_cells (hf.valid hv) fun p o ho => ?_
  rcases hf.cell.mp ho with ⟨-, heq⟩ | ⟨-, hold⟩
  · cases heq
  · refine ⟨o, hold, rfl, ?_⟩
    cases hheader : o.header with
    | mark w => rw [ho.markWord_mark hheader, hold.markWord_mark hheader]
    | expanded m =>
      obtain ⟨-, d, hd⟩ := hv.monitors p o m hold hheader
      rw [hold.markWord_expanded hheader hd, ho.markWord_expanded hheader (hf.old hd)]

/-- The mark word in a monitor takes the place of the one in the header. -/
theorem inflate (hv : h.Valid) {w : MarkWord} (ho : h.Cell obj (.object o))
    (hheader : o.header = .mark w) (hc : h.Cell a (.monitor ⟨none, 0, w⟩)) (hlt : obj < a)
    (hfree : ∀ q b, h.Cell q b → h.memory.monitorOf q ≠ some a) :
    h.Carries (h.update obj (.object { o with header := .expanded a })) := by
  have hr : h.Replaces obj (.object o) (.object { o with header := .expanded a }) := by
    refine ⟨rfl, nofun, ?_, nofun⟩
    rintro o' heq
    cases heq
    refine ⟨⟨o, rfl⟩, ?_, fun s hs => hv.fields obj o s ho hs, hv.referents obj o ho⟩
    rintro m hm
    cases hm
    exact ⟨hlt, ⟨_, hc⟩, fun q hq ⟨b, hb⟩ => absurd hq (hfree q b hb)⟩
  refine of_cells (hv.update ho hr) fun p o' ho' => ?_
  have hmonitor : ∀ {m d}, h.Cell m (.monitor d) →
      (h.update obj (.object { o with header := .expanded a })).Cell m (.monitor d) := by
    intro m d hd
    refine (cell_update ho).mpr (.inr ⟨?_, hd⟩)
    rintro rfl
    cases ho.block.symm.trans hd.block
  rcases (cell_update ho).mp ho' with ⟨rfl, heq⟩ | ⟨-, hold⟩
  · cases heq
    refine ⟨o, ho, rfl, ?_⟩
    rw [ho'.markWord_expanded rfl (hmonitor hc), ho.markWord_mark hheader]
  · refine ⟨o', hold, rfl, ?_⟩
    cases hheader' : o'.header with
    | mark w => rw [ho'.markWord_mark hheader', hold.markWord_mark hheader']
    | expanded m =>
      obtain ⟨-, d, hd⟩ := hv.monitors p o' m hold hheader'
      rw [hold.markWord_expanded hheader' hd, ho'.markWord_expanded hheader' (hmonitor hd)]

theorem makeHandle (hv : h.Valid) (ho : h.Cell obj (.object o)) : h.Carries (h.makeHandle obj) := by
  apply withRoots hv
  intro v hmem hptr
  rcases mem_cons.mp hmem with rfl | hmem
  · exact hv.roots _ mem_cons_self hptr
  · rcases mem_cons.mp hmem with rfl | hmem
    · exact ⟨o, ho⟩
    · exact hv.roots v (mem_cons_of_mem _ hmem) hptr

theorem dropHandle (hv : h.Valid) (obj : ℕ) : h.Carries (h.dropHandle obj) := by
  apply withRoots hv
  intro v hmem hptr
  apply hv.roots v _ hptr
  rcases mem_cons.mp hmem with rfl | hmem
  · exact mem_cons_self
  · exact mem_cons_of_mem _ (mem_of_mem_erase hmem)

variable {f : HeapMonitor → Option HeapMonitor}
  (hf : ∀ c c', f c = some c' → c'.markWord = c.markWord)

include hf

theorem acquireLoop (hv : h.Valid) (hstep : h.acquireLoop obj f = some h') : h.Carries h' := by
  obtain ⟨m, hm, rfl⟩ := Option.map_eq_some_iff.mp hstep
  have hc := inspectMonitor_cell hv hm
  cases hnew : f m.2 with
  | none => exact refl hv
  | some c' =>
    have hupdate := update_monitor hv hc (hf _ _ hnew)
    exact hupdate.trans (dropHandle hupdate.valid obj)

theorem monitorRelease (hv : h.Valid) (obj : ℕ) : h.Carries (h.monitorRelease obj f) := by
  unfold GcHeap.monitorRelease
  cases hm : h.inspectMonitor obj with
  | none => exact refl hv
  | some m =>
    have hc := inspectMonitor_cell hv hm
    show h.Carries (h.updateMonitor m.1 (f m.2))
    cases hnew : f m.2 with
    | none => exact refl hv
    | some c' => exact update_monitor hv hc (hf _ _ hnew)

end Carries

end Operations

/-! ### `monitor_acquire` -/

section Acquire

variable {h h' : GcHeap} {obj a : ℕ} {o : HeapObject} {w : MarkWord}
  {f : HeapMonitor → Option HeapMonitor}

theorem acquireLoop_total (hv : h.Valid) (ho : h.Cell obj (.object o))
    (hheader : o.header = .expanded a) (f : HeapMonitor → Option HeapMonitor) :
    ∃ h', h.acquireLoop obj f = some h' := by
  obtain ⟨c, hc⟩ := inspectMonitor_expanded hv ho hheader
  unfold acquireLoop
  rw [hc]
  exact ⟨_, rfl⟩

theorem acquireLoop_object (hv : h.Valid) (hstep : h.acquireLoop obj f = some h') {p : ℕ}
    (hp : h.Cell p (.object o)) : h'.Cell p (.object o) := by
  obtain ⟨m, hm, rfl⟩ := Option.map_eq_some_iff.mp hstep
  have hc := inspectMonitor_cell hv hm
  cases f m.2 with
  | none => exact hp
  | some c' =>
    refine cell_withRoots.mpr ((cell_update hc).mpr (.inr ⟨?_, hp⟩))
    rintro rfl
    cases hp.block.symm.trans hc.block

/-- The handle of an object follows it. -/
theorem Gathered.head (hv : h.Valid) (hg : h.Gathered h') {rs : List ℕ}
    (hroots : h.roots = obj :: rs) (ho : h.Cell obj (.object o)) (hheader : o.header = .mark w) :
    ∃ o', h'.Cell (h'.roots.headD 0) (.object o') ∧ o'.id = o.id ∧ o'.header = .mark w := by
  rcases hg with rfl | ⟨htarget, live, r, hc⟩
  · rw [hroots]
    exact ⟨o, ho, rfl, hheader⟩
  · have hpos := hv.base_pos
    have habove := ho.above
    have hbelow := ho.below
    have hused := hv.used_le
    have hlive : obj ∈ live := by
      apply hc.root_live _ ⟨by omega, habove, by omega⟩
      rw [hroots]
      exact mem_cons_of_mem _ mem_cons_self
    obtain ⟨a, ha, hobject⟩ := hc.object_live hv hlive
    obtain ⟨x, hx, -⟩ := hc.new_object hv ho ha
    have hhead : h'.roots.headD 0 = a := by
      rw [hc.roots, hroots, map_cons, headD_cons, hc.relocateRoot_eq hv fun _ => ⟨o, ho⟩, hobject]
    rw [hhead]
    refine ⟨_, hx, rfl, ?_⟩
    rcases hc.image_header hlive ho x with ⟨w', hold, hnew⟩ | ⟨m, m', hold, -⟩
    · rw [hheader] at hold
      cases hold
      exact hnew
    · rw [hheader] at hold
      cases hold

/-- The exchange succeeds, since a collection keeps the mark word in the header. -/
theorem installMonitor_spec (hv : h.Valid) (ho : h.Cell obj (.object o))
    (hheader : o.header = .mark w) (hf : h.Fits a (.monitor ⟨none, 0, w⟩)) :
    ∃ h', h.installMonitor obj a w = some h' ∧ h.Carries h' ∧
      h'.Cell obj (.object { o with header := .expanded a }) := by
  have hplaced : h.Carries (h.update a (.monitor ⟨none, 0, w⟩)) := .place_monitor hv hf
  have hold := hf.old ho
  have hlast := hf.last obj _ ho
  have hsize := (HeapBlock.object o).size_pos
  have hcell : (h.update a (.monitor ⟨none, 0, w⟩)).Cell a (.monitor ⟨none, 0, w⟩) :=
    hf.cell.mpr (.inl ⟨rfl, rfl⟩)
  refine ⟨_, ?_, hplaced.trans (.inflate hplaced.valid hold hheader hcell (by omega) ?_), ?_⟩
  · unfold installMonitor
    simp only [objectAt_eq.mpr hold, Option.map_some, hheader, if_true]
  · -- no object has a monitor where nothing was
    intro q b hq hmonitor
    obtain ⟨hne, hmonitor⟩ := hf.monitorOf_eq hmonitor
    rcases hf.cell.mp hq with ⟨heq, -⟩ | ⟨-, hq⟩
    · exact hne heq
    · cases b with
      | object o' =>
        obtain ⟨-, c, hc⟩ := hv.monitorOf_cell hq hmonitor
        have hlast := hf.last a _ hc
        have hsize := (HeapBlock.monitor c).size_pos
        omega
      | monitor c =>
        unfold HeapMemory.monitorOf at hmonitor
        simp only [hq.block] at hmonitor
        cases hmonitor
  · exact (cell_update hold).mpr (.inl ⟨rfl, rfl⟩)

theorem Target.makeHandle {newHeap : ℕ} (htarget : h.Target newHeap) (hv : h.Valid)
    (ho : h.Cell obj (.object o)) : (h.makeHandle obj).Target newHeap :=
  { htarget with
    fresh p hp hout := by
      have habove := ho.above
      have hbelow := ho.below
      have hused := hv.used_le
      have hin : p ≠ obj := by
        rintro rfl
        exact hout ⟨habove, show p < h.base + h.capacity by omega⟩
      apply htarget.fresh p _ hout
      rcases hp with hroot | ⟨q, o', hq, hslot⟩
      · rcases mem_cons.mp hroot with rfl | hroot
        · exact .inl mem_cons_self
        · rcases mem_cons.mp hroot with heq | hroot
          · exact absurd heq hin
          · exact .inl (mem_cons_of_mem _ hroot)
      · exact .inr ⟨q, o', cell_withRoots.mp hq, hslot⟩ }

/-- `monitor_acquire` always comes to its yield or its end, and the object is still there. -/
theorem monitorAcquire_spec (hv : h.Valid) (ho : h.Cell obj (.object o)) {newHeap : ℕ}
    (htarget : h.Target newHeap) (t : ℕ) :
    ∃ h', h.monitorAcquire t obj newHeap = some h' ∧ h.Carries h' ∧
      ∃ a o', h'.Cell a (.object o') ∧ o'.id = o.id := by
  have hword : ∀ c c' : HeapMonitor, c.acquire t = some c' → c'.markWord = c.markWord :=
    fun _ _ hacquire => HeapMonitor.acquire_markWord hacquire
  have hheld := Carries.makeHandle hv ho
  have hoheld : (h.makeHandle obj).Cell obj (.object o) := cell_withRoots.mpr ho
  unfold monitorAcquire
  rw [objectAt_eq.mpr ho, Option.bind_some]
  cases hheader : o.header with
  | expanded a =>
    obtain ⟨h', hloop⟩ := acquireLoop_total hheld.valid hoheld hheader (·.acquire t)
    exact ⟨h', hloop, hheld.trans (.acquireLoop hword hheld.valid hloop), obj, o,
      acquireLoop_object hheld.valid hloop hoheld, rfl⟩
  | mark w =>
    obtain ⟨q, h₁, h₂, hbump, hg, hv₁, hresult⟩ :=
      bumpAllocate_spec hheld.valid (htarget.makeHandle hv ho) 16
    have hgathered := Carries.gathered hheld.valid hg
    obtain ⟨o₁, ho₁, hid, hheader₁⟩ := hg.head hheld.valid rfl hoheld hheader
    simp only [hbump, Option.bind_some]
    rcases hresult with ⟨rfl, rfl⟩ | ⟨rfl, rfl, hroom⟩
    · exact ⟨_, rfl, (hheld.trans hgathered).trans (.dropHandle hv₁ _), _, o₁,
        cell_withRoots.mpr ho₁, hid⟩
    · have htaken : h₁.Carries (h₁.take 16) := .take hv₁ (by decide) hroom
      have hf := hv₁.fits (b := .monitor ⟨none, 0, w⟩) (hv₁.unflagged _ _ ho₁ w hheader₁) nofun
      obtain ⟨h₃, hinstall, hinflated, ho₃⟩ :=
        installMonitor_spec htaken.valid ((cell_take hv₁).mpr ho₁) hheader₁ hf
      obtain ⟨h', hloop⟩ := acquireLoop_total hinflated.valid ho₃ rfl (·.acquire t)
      refine ⟨h', ?_, ?_, _, _, acquireLoop_object hinflated.valid hloop ho₃, hid⟩
      · show ((h₁.take 16).installMonitor (h₁.roots.headD 0) (h₁.base + h₁.used) w).bind _ = _
        rw [hinstall]
        exact hloop
      · have hthrough := ((hheld.trans hgathered).trans htaken).trans hinflated
        exact hthrough.trans (.acquireLoop hword hinflated.valid hloop)

end Acquire

end GcHeap

end TraceJvm
