import TraceJvm.Lib.GrowArray
import TraceJvm.SchedulerDelivery
import TraceJvm.Classfile

/-! The roots that the collector takes from the scheduler: `rr_scheduler_enumerate_gc_roots` and
the end of `major_gc_enumerate_gc_roots`. The vector of roots is an array of `stb_ds.h`, and the
scheduler receives its address by value. -/
namespace TraceJvm

open GrowArray Transition List

/-- The address of a reference: an argument in the copy that `rr_scheduler_run` has made for the
call of a record, or a place outside of these copies. -/
inductive RootSlot where
  | place (n : ℕ)
  | argument (record k : ℕ)
  deriving DecidableEq

structure CalledMethod where
  isStatic : Bool
  /-- The kinds of the parameters. -/
  args : List TypeKind

def methodArgc (m : CalledMethod) : ℕ := m.args.length + if m.isStatic then 0 else 1

def isNthArgReference (m : CalledMethod) (i : ℕ) : Bool :=
  if m.isStatic then m.args[i]? = some .reference
  else i = 0 || m.args[i - 1]? = some .reference

/-- A place that the collector looks at before it asks the scheduler: the mirrors of the classes,
the handles, static fields, modules, stacks and interned strings. -/
structure RootPlace where
  address : ℕ
  /-- The place holds the address of an object in the heap. -/
  inHeap : Bool

/-- The addresses that `PUSH_ROOT` pushes. -/
def pushedPlaces (places : List RootPlace) : List RootSlot :=
  (places.filter RootPlace.inHeap).map fun p => .place p.address

section

variable (method : ℕ → CalledMethod) (s : Scheduler)

def callArgumentSlots (c : PendingCall) : List RootSlot :=
  ((List.range (methodArgc (method c.record))).filter
    (isNthArgReference (method c.record))).map (.argument c.record)

/-- The addresses that `rr_scheduler_enumerate_gc_roots` pushes, in its order. -/
def schedulerSlots : List RootSlot :=
  s.roundRobin.flatMap fun t => (s.callQueue t).flatMap (callArgumentSlots method)

/-- `rr_scheduler_enumerate_gc_roots`. The second component is its own variable `stbds_vector`. -/
def rrSchedulerEnumerateGcRoots (h : Heap RootSlot) (vector : Option ℕ) :
    Option (Heap RootSlot × Option ℕ) :=
  h.putAll vector (schedulerSlots method s)

/-- `major_gc_enumerate_gc_roots`, from an empty context to the memory and `ctx->roots`. -/
def majorGcEnumerateGcRoots (places : List RootPlace) : Option (Heap RootSlot × Option ℕ) :=
  (Heap.empty.putAll none (pushedPlaces places)).bind fun r =>
    (rrSchedulerEnumerateGcRoots method s r.1 r.2).map fun r' => (r'.1, r.2)

def gcRoots (places : List RootPlace) : Option (List RootSlot) :=
  (majorGcEnumerateGcRoots method s places).bind fun r => r.1.read r.2

def Pending (c : PendingCall) : Prop := ∃ t ∈ s.roundRobin, c ∈ s.callQueue t

/-- The vector holds the address of every reference argument of a pending call once, and of no
other argument. -/
structure RootsComplete (roots : List RootSlot) : Prop where
  once : ∀ c, Pending s c → ∀ k < methodArgc (method c.record),
    isNthArgReference (method c.record) k = true → roots.count (.argument c.record k) = 1
  only : ∀ r k, .argument r k ∈ roots → ∃ c, Pending s c ∧ c.record = r ∧
    k < methodArgc (method r) ∧ isNthArgReference (method r) k = true

def referenceArguments : ℕ :=
  (s.roundRobin.flatMap fun t => (s.callQueue t).map fun c =>
    (List.range (methodArgc (method c.record))).countP
      (isNthArgReference (method c.record))).sum

end

variable {method : ℕ → CalledMethod} {s : Scheduler}

theorem mem_callArgumentSlots {c : PendingCall} {x : RootSlot} : x ∈ callArgumentSlots method c ↔
    ∃ k < methodArgc (method c.record), isNthArgReference (method c.record) k = true ∧
      x = .argument c.record k := by
  simp only [callArgumentSlots, mem_map, mem_filter, mem_range]
  constructor
  · rintro ⟨k, ⟨hk, href⟩, rfl⟩
    exact ⟨k, hk, href, rfl⟩
  · rintro ⟨k, hk, href, rfl⟩
    exact ⟨k, ⟨hk, href⟩, rfl⟩

theorem mem_schedulerSlots {x : RootSlot} : x ∈ schedulerSlots method s ↔
    ∃ c, Pending s c ∧ ∃ k < methodArgc (method c.record),
      isNthArgReference (method c.record) k = true ∧ x = .argument c.record k := by
  simp only [schedulerSlots, mem_flatMap, mem_callArgumentSlots, Pending]
  constructor
  · rintro ⟨t, ht, c, hc, h⟩
    exact ⟨c, ⟨t, ht, hc⟩, h⟩
  · rintro ⟨c, ⟨t, ht, hc⟩, h⟩
    exact ⟨t, ht, c, hc, h⟩

theorem callArgumentSlots_nodup (c : PendingCall) : (callArgumentSlots method c).Nodup := by
  apply (nodup_range.filter _).map
  intro i j hij
  simpa using hij

theorem callArgumentSlots_disjoint {c d : PendingCall} (hne : c.record ≠ d.record) :
    (callArgumentSlots method c).Disjoint (callArgumentSlots method d) := by
  intro x hx hy
  obtain ⟨k, -, -, rfl⟩ := mem_callArgumentSlots.mp hx
  obtain ⟨k', -, -, he⟩ := mem_callArgumentSlots.mp hy
  exact hne (RootSlot.argument.inj he).1

theorem pending_thread (hi : SchedulerInv s) {t u : ℕ} {c d : PendingCall}
    (hc : c ∈ s.callQueue t) (hd : d ∈ s.callQueue u) (hr : c.record = d.record) : t = u := by
  have hmem : ∀ {v : ℕ} {e : PendingCall}, e ∈ s.callQueue v → e.record ∈ s.enqueued v := by
    intro v e he
    rw [hi.kept]
    exact mem_append_right _ (mem_map_of_mem he)
  obtain ⟨rec, hrec, ht⟩ := hi.known (hmem hc)
  obtain ⟨rec', hrec', hu⟩ := hi.known (hmem hd)
  rw [hr, hrec'] at hrec
  rw [← ht, ← hu, Option.some.inj hrec]

theorem schedulerSlots_nodup (hi : SchedulerInv s) : (schedulerSlots method s).Nodup := by
  have hqueue : ∀ t, ((s.callQueue t).map PendingCall.record).Nodup := by
    intro t
    have honce := hi.once t
    rw [hi.kept] at honce
    exact (nodup_append.mp honce).2.1
  refine nodup_flatMap.mpr ⟨fun t _ => ?_, ?_⟩
  · refine nodup_flatMap.mpr ⟨fun c _ => callArgumentSlots_nodup c, ?_⟩
    exact (pairwise_map.mp (hqueue t)).imp fun hne => callArgumentSlots_disjoint hne
  · refine hi.nodup.imp fun {t u} hne x hx hy => ?_
    obtain ⟨c, hc, hxc⟩ := mem_flatMap.mp hx
    obtain ⟨d, hd, hxd⟩ := mem_flatMap.mp hy
    by_cases hr : c.record = d.record
    · exact hne (pending_thread hi hc hd hr)
    · exact callArgumentSlots_disjoint hr hxc hxd

theorem length_schedulerSlots : (schedulerSlots method s).length = referenceArguments method s := by
  have hargs : ∀ c, (callArgumentSlots method c).length =
      (List.range (methodArgc (method c.record))).countP (isNthArgReference (method c.record)) := by
    intro c
    rw [callArgumentSlots, length_map, countP_eq_length_filter]
  have hqueue : ∀ q : List PendingCall, (q.flatMap (callArgumentSlots method)).length =
      (q.map fun c => (List.range (methodArgc (method c.record))).countP
        (isNthArgReference (method c.record))).sum := by
    intro q
    simp only [length_flatMap, hargs]
  unfold schedulerSlots referenceArguments
  induction s.roundRobin with
  | nil => rfl
  | cons t l ih => simp only [flatMap_cons, length_append, sum_append, hqueue, ih]

/-- The vector afterwards, by the room that the pushes of `PUSH_ROOT` have left in it. -/
theorem gcRoots_eq (places : List RootPlace) :
    gcRoots method s places =
      if (pushedPlaces places).length + referenceArguments method s ≤
          builtCapacity (pushedPlaces places).length then
        some (pushedPlaces places ++ schedulerSlots method s)
      else if pushedPlaces places = [] then some [] else none := by
  rw [← length_schedulerSlots]
  unfold gcRoots majorGcEnumerateGcRoots rrSchedulerEnumerateGcRoots
  cases hp : pushedPlaces places with
  | nil =>
    -- No root has been pushed yet: `ctx->roots` is null and stays null.
    cases hq : schedulerSlots method s with
    | nil => rfl
    | cons x xs =>
      obtain ⟨h', j, b, hput, -⟩ := Heap.empty.putAll_none x xs
      have hnil : (Heap.empty : Heap RootSlot).putAll none [] = some (Heap.empty, none) := rfl
      simp only [hnil, hput, Option.bind_some, Option.map_some]
      simp [Heap.read, builtCapacity]
  | cons x xs =>
    obtain ⟨h, i, b, hput, hb, hcontents, hcap⟩ := Heap.empty.putAll_none x xs
    obtain ⟨h', j, b', hall, -⟩ := Heap.putAll_some hb (schedulerSlots method s)
    have hread := Heap.read_copy hb hall
    simp only [hput, Option.bind_some, hall, Option.map_some, hread, hcontents, hcap]
    simp

theorem place_not_argument {places : List RootPlace} {r k : ℕ} :
    .argument r k ∉ pushedPlaces places := by
  simp [pushedPlaces]

theorem rootsComplete_append (hi : SchedulerInv s) (places : List RootPlace) :
    RootsComplete method s (pushedPlaces places ++ schedulerSlots method s) where
  once c hc k hk href := by
    rw [count_append, count_eq_zero.mpr place_not_argument, Nat.zero_add]
    apply count_eq_one_of_mem (schedulerSlots_nodup hi)
    exact mem_schedulerSlots.mpr ⟨c, hc, k, hk, href, rfl⟩
  only r k hmem := by
    rcases mem_append.mp hmem with hplace | harg
    · exact absurd hplace place_not_argument
    · obtain ⟨c, hc, k', hk, href, he⟩ := mem_schedulerSlots.mp harg
      cases he
      exact ⟨c, hc, rfl, hk, href⟩

/-- In every reachable state of the scheduler the collector goes on with a vector that is complete
exactly when the roots of the scheduler fit into the capacity that `n` pushes have built: zero for
no push, and otherwise the least power of two that is at least `n` and 4. -/
theorem schedulerRoots_complete_iff {f : ThreadFlags}
    (hs : Reachable schedulerStep (Scheduler.init f) s) (places : List RootPlace) :
    (∃ roots, gcRoots method s places = some roots ∧ RootsComplete method s roots) ↔
      (pushedPlaces places).length + referenceArguments method s ≤
        builtCapacity (pushedPlaces places).length := by
  have hi := hs.invariant SchedulerInv (.init f) fun _ _ _ hv _ hstep =>
    Scheduler.schedulerStep_inv hv hstep
  rw [gcRoots_eq]
  constructor
  · rintro ⟨roots, hroots, hcomplete⟩
    by_contra hover
    rw [if_neg hover] at hroots
    split at hroots
    · rename_i hnil
      cases hroots
      rw [hnil, ← length_schedulerSlots] at hover
      obtain ⟨x, hx⟩ : ∃ x, x ∈ schedulerSlots method s := by
        apply exists_mem_of_length_pos
        simp only [length_nil, Nat.zero_add] at hover
        omega
      obtain ⟨c, hc, k, hk, href, rfl⟩ := mem_schedulerSlots.mp hx
      simpa using hcomplete.once c hc k hk href
    · cases hroots
  · intro hfits
    rw [if_pos hfits]
    exact ⟨_, rfl, rootsComplete_append hi places⟩

def oneCall : Scheduler := (Scheduler.init idleFlags).run ⟨0, false⟩

def heapPlaces (n : ℕ) : List RootPlace := (List.range n).map fun i => ⟨i, true⟩

theorem oneCall_reachable :
    Reachable schedulerStep (Scheduler.init idleFlags) oneCall :=
  Runs.refl.tail (a := .run ⟨0, false⟩) trivial rfl

theorem schedulerRoots_complete_threePlaces :
    ∃ roots, gcRoots (fun _ => ⟨false, [.int]⟩) oneCall (heapPlaces 3) = some roots ∧
      RootsComplete (fun _ => ⟨false, [.int]⟩) oneCall roots :=
  (schedulerRoots_complete_iff oneCall_reachable (heapPlaces 3)).mpr (by decide)

/-- With four other roots the vector is full: the push of the receiver moves it, and the collector
goes on with the address of the freed block. -/
theorem schedulerRoots_lost_fourPlaces :
    ∃ (f : ThreadFlags) (s : Scheduler), Reachable schedulerStep (Scheduler.init f) s ∧
      ¬ ∃ roots, gcRoots (fun _ => ⟨false, [.int]⟩) s (heapPlaces 4) = some roots ∧
        RootsComplete (fun _ => ⟨false, [.int]⟩) s roots := by
  refine ⟨_, _, oneCall_reachable, ?_⟩
  rintro ⟨roots, hroots, -⟩
  have hfreed : gcRoots (fun _ => ⟨false, [.int]⟩) oneCall (heapPlaces 4) = none := by decide
  rw [hfreed] at hroots
  cases hroots

end TraceJvm
