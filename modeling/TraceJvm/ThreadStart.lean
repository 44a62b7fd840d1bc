import TraceJvm.CallArity
import TraceJvm.Lib.SlotTable

/-! `Thread.start0`. A thread is known by its position in `active_threads`, from which nothing is
removed before the VM is freed, and an object by its identity: the receiver is a handle, which a
collection updates. -/
namespace TraceJvm

open SlotTable

/-- `method_argc` -/
def CpMethod.argc (m : CpMethod) : ℕ := argsCount m.descriptor + if m.isStatic then 0 else 1

/-- `pending_call`, with the copy of the arguments. -/
structure QueuedCall where
  method : CpMethod
  args : List ℕ

/-- `vm_thread`; `callQueue` is that of the `thread_info` which the scheduler has for the thread. -/
structure VmThread where
  tid : ℕ
  threadObj : Option ℕ
  callQueue : Option (List QueuedCall)

/-- What `start0` reads and writes. -/
structure ThreadVm where
  /-- `vm->scheduler` is not null. -/
  hasScheduler : Bool
  activeThreads : List VmThread
  threadCreationEpoch : ℕ
  nextTid : ℕ
  /-- The threads of the scheduler's `executions`. -/
  executions : List ℕ
  /-- The handles of the thread that calls `start0`. -/
  handles : List (Option ℕ)
  descriptor : ℕ → ClassRef
  /-- `eetop` of a thread object -/
  eetop : ℕ → Option ℕ

namespace ThreadVm

/-- `create_vm_thread` in a VM that is initialized: the new thread and the state, or `none` where
all handles are in use. -/
def createVmThread (s : ThreadVm) (threadObj : ℕ) : Option (ℕ × ThreadVm) :=
  match fill s.handles threadObj with
  | none => none
  | some (handles, javaThread) =>
    some (s.activeThreads.length, { s with
      activeThreads := s.activeThreads ++ [⟨s.nextTid, handles[javaThread]?.join, none⟩]
      threadCreationEpoch := s.threadCreationEpoch + 1
      nextTid := s.nextTid + 1
      handles := drop handles javaThread })

/-- `rr_scheduler_run`; `none` where it reads through a null method or past the end of the
arguments. -/
def rrSchedulerRun (s : ThreadVm) (thread : ℕ) (method : Option CpMethod) (args : List ℕ) :
    Option ThreadVm :=
  match method with
  | none => none
  | some m =>
    if args.length < m.argc then none
    else
      let pending : QueuedCall := ⟨m, args.take m.argc⟩
      some { s with
        activeThreads := s.activeThreads.modify thread fun t =>
          { t with callQueue := some (t.callQueue.getD [] ++ [pending]) }
        executions := s.executions ++ [thread] }

/-- `Thread.start0` -/
def start0 (W : ClassWorld) (s : ThreadVm) (obj : ℕ) : Option ThreadVm :=
  if s.hasScheduler then
    (s.createVmThread obj).bind fun r =>
      let run := W.declared (r.2.descriptor obj) "run" "()V"
      let s := { r.2 with eetop := Function.update r.2.eetop obj (some r.1) }
      s.rrSchedulerRun r.1 run [obj]
  else some s

end ThreadVm

/-- `m` is the public `run()` that `java.lang.Thread` declares. -/
structure ThreadRun (W : ClassWorld) (m : CpMethod) : Prop where
  declared : W.declared ⟨m.cls, 0⟩ "run" "()V" = some m
  descriptor : m.descriptor = "()V"
  isPublic : m.isPublic = true
  isStatic : m.isStatic = false
  isPrivate : m.isPrivate = false

/-- One thread is new; it belongs to the object, the object to it, and the only call queued for it
is that of the method which is selected for the class of the object. -/
def StartRight (W : ClassWorld) (m : CpMethod) (s : ThreadVm) (obj : ℕ) : Prop :=
  ∃ s' t x, s.start0 W obj = some s' ∧ s'.activeThreads = s.activeThreads ++ [t] ∧
    t.threadObj = some obj ∧ s'.eetop = Function.update s.eetop obj (some s.activeThreads.length) ∧
    s'.handles = s.handles ∧ W.Selects m (s.descriptor obj) x ∧
    t.callQueue = some [⟨x, [obj]⟩]

/-- There is a scheduler and a free handle, and the object's own class declares a `run()` that
overrides. -/
def StartMeets (W : ClassWorld) (s : ThreadVm) (obj : ℕ) : Prop :=
  s.hasScheduler = true ∧ 0 < free s.handles ∧
    ∃ x, W.declared (s.descriptor obj) "run" "()V" = some x ∧ x.descriptor = "()V" ∧
      x.isStatic = false ∧ x.isPrivate = false

namespace ClassWorld

variable {W : ClassWorld} {m x : CpMethod} {c : ClassRef}

theorem exists_selects (h : W.Subclass c ⟨m.cls, 0⟩) : ∃ x, W.Selects m c x := by
  induction h using Relation.ReflTransGen.head_induction_on with
  | refl => exact ⟨m, .resolved⟩
  | @head c p hp _ ih =>
    obtain ⟨e, he⟩ := ih
    by_cases hover : ∃ y ∈ W.methodsOf c, W.Overrides y m
    · obtain ⟨y, hy, ho⟩ := hover
      exact ⟨y, .overridden hp he hy ho⟩
    · apply Exists.intro e
      apply Selects.inherited hp he
      intro y hy ho
      exact hover ⟨y, hy, ho⟩

theorem declared_spec {name descriptor : String} (h : W.declared c name descriptor = some x) :
    x ∈ W.methodsOf c ∧ x.name = name := by
  have hmatch := List.find?_some h
  simp only [CpMethod.candidateMatches, decide_eq_true_eq] at hmatch
  exact ⟨List.mem_of_find?_eq_some h, hmatch.1⟩

/-- A method that the class itself declares is selected if and only if it overrides, or is the
resolved one. -/
theorem selects_declared_iff (hm : ThreadRun W m) (hsub : W.Subclass c ⟨m.cls, 0⟩)
    (hx : W.declared c "run" "()V" = some x) :
    W.Selects m c x ↔ x.descriptor = "()V" ∧ x.isStatic = false ∧ x.isPrivate = false := by
  obtain ⟨hmem, hname⟩ := declared_spec hx
  obtain ⟨-, hmname⟩ := declared_spec hm.declared
  constructor
  · intro h
    cases h with
    | resolved => exact ⟨hm.descriptor, hm.isStatic, hm.isPrivate⟩
    | overridden hp he _ ho =>
      obtain ⟨hstatic, -, -, hdescriptor, hprivate⟩ := ho.2.candidate
      exact ⟨hdescriptor.trans hm.descriptor, hstatic, hprivate⟩
    | inherited hp he _ => exact absurd hmem (he.not_mem_methodsOf hp)
  · intro ⟨hdescriptor, hstatic, hprivate⟩
    have hover : W.Overrides x m := by
      apply And.intro hm.isPrivate
      apply CanOverride.visible _ (Or.inl hm.isPublic)
      exact ⟨hstatic, hm.isStatic, hname.trans hmname.symm, hdescriptor.trans hm.descriptor.symm,
        hprivate⟩
    rcases hsub.cases_head with heq | ⟨p, hp, hsub⟩
    · rw [heq, hm.declared] at hx
      rw [heq, ← Option.some.inj hx]
      exact .resolved
    · obtain ⟨e, he⟩ := exists_selects hsub
      exact .overridden hp he hmem hover

end ClassWorld

theorem argc_run {m : CpMethod} (hdescriptor : m.descriptor = "()V")
    (hstatic : m.isStatic = false) : m.argc = 1 := by
  unfold CpMethod.argc
  rw [hdescriptor, hstatic]
  rfl

variable {W : ClassWorld} {m x : CpMethod} {s s' : ThreadVm} {obj : ℕ}

theorem createVmThread_eq (h : 0 < free s.handles) :
    s.createVmThread obj = some (s.activeThreads.length, { s with
      activeThreads := s.activeThreads ++ [⟨s.nextTid, some obj, none⟩]
      threadCreationEpoch := s.threadCreationEpoch + 1
      nextTid := s.nextTid + 1 }) := by
  obtain ⟨handles, i, hfill⟩ := fill_of_free h obj
  unfold ThreadVm.createVmThread
  rw [hfill]
  dsimp only
  rw [fill_self hfill, drop_fill hfill]
  rfl

theorem createVmThread_none (h : free s.handles = 0) : s.createVmThread obj = none := by
  have hfull : fill s.handles obj = none := by
    cases hfill : fill s.handles obj with
    | none => rfl
    | some r =>
      have hfree := free_fill hfill
      omega
  unfold ThreadVm.createVmThread
  rw [hfull]

theorem modify_last {α : Type*} (l : List α) (x : α) (f : α → α) :
    (l ++ [x]).modify l.length f = l ++ [f x] := by
  induction l with
  | nil => rfl
  | cons y l ih =>
    show y :: (l ++ [x]).modify l.length f = y :: (l ++ [f x])
    rw [ih]

/-- What is queued, if `start0` returns with a scheduler. -/
theorem start0_eq (hscheduler : s.hasScheduler = true) (hfree : 0 < free s.handles) :
    s.start0 W obj =
      match W.declared (s.descriptor obj) "run" "()V" with
      | none => none
      | some x =>
        if 1 < x.argc then none
        else some { s with
          activeThreads := s.activeThreads ++
            [⟨s.nextTid, some obj, some [⟨x, [obj].take x.argc⟩]⟩]
          threadCreationEpoch := s.threadCreationEpoch + 1
          nextTid := s.nextTid + 1
          eetop := Function.update s.eetop obj (some s.activeThreads.length)
          executions := s.executions ++ [s.activeThreads.length] } := by
  unfold ThreadVm.start0
  rw [if_pos hscheduler, createVmThread_eq hfree]
  dsimp only [Option.bind_some]
  unfold ThreadVm.rrSchedulerRun
  dsimp only
  cases W.declared (s.descriptor obj) "run" "()V" with
  | none => rfl
  | some x =>
    dsimp only
    rw [modify_last]
    rfl

/-- `start0` runs the method that virtual dispatch selects if and only if the object's own class
declares it, a handle is free and there is a scheduler. -/
theorem start_right_iff (hm : ThreadRun W m) (hsub : W.Subclass (s.descriptor obj) ⟨m.cls, 0⟩) :
    StartRight W m s obj ↔ StartMeets W s obj := by
  constructor
  · intro ⟨s', t, x, hrun, hthreads, _, _, _, hselects, hqueue⟩
    have hscheduler : s.hasScheduler = true := by
      by_contra hnone
      unfold ThreadVm.start0 at hrun
      rw [if_neg hnone] at hrun
      rw [← Option.some.inj hrun] at hthreads
      exact absurd hthreads (by simp)
    have hfree : 0 < free s.handles := by
      rcases Nat.eq_zero_or_pos (free s.handles) with hzero | hpos
      · unfold ThreadVm.start0 at hrun
        rw [if_pos hscheduler, createVmThread_none hzero] at hrun
        cases hrun
      · exact hpos
    rw [start0_eq hscheduler hfree] at hrun
    cases hdeclared : W.declared (s.descriptor obj) "run" "()V" with
    | none =>
      rw [hdeclared] at hrun
      cases hrun
    | some y =>
      rw [hdeclared] at hrun
      dsimp only at hrun
      split at hrun
      · cases hrun
      · rw [← Option.some.inj hrun] at hthreads
        have ht := List.singleton_inj.mp (List.append_cancel_left hthreads)
        rw [← ht] at hqueue
        have hxy : y = x := congrArg QueuedCall.method
          (List.singleton_inj.mp (Option.some.inj hqueue))
        rw [← hxy] at hselects
        exact ⟨hscheduler, hfree, y, hdeclared,
          (ClassWorld.selects_declared_iff hm hsub hdeclared).mp hselects⟩
  · intro ⟨hscheduler, hfree, x, hdeclared, hx⟩
    have hselects := (ClassWorld.selects_declared_iff hm hsub hdeclared).mpr hx
    have hargc := argc_run hx.1 hx.2.1
    have hrun : s.start0 W obj = _ := start0_eq hscheduler hfree
    rw [hdeclared] at hrun
    dsimp only at hrun
    rw [hargc, if_neg (Nat.lt_irrefl 1)] at hrun
    exact ⟨_, _, x, hrun, rfl, rfl, rfl, rfl, hselects, rfl⟩

def publicRun (cls : ℕ) : CpMethod :=
  ⟨cls, 0, "run", "()V", true, false, false, false, false, false⟩

/-- `Thread`, `class A extends Thread` with a `run` of its own, and `class B extends A` without. -/
def threadSubclasses : ClassWorld where
  isPrimitive _ := false
  superClass
    | 1 => some 0
    | 2 => some 1
    | 3 => some 2
    | _ => none
  interfaces _ := []
  hasClinit _ := false
  verifies _ := true
  object := 0
  cloneable := 0
  serializable := 0
  super_lt := by
    intro c p h
    split at h <;> cases h <;> decide
  interfaces_lt := Hierarchy.lt_of_mem_nil
  className
    | 0 => "java/lang/Object"
    | 1 => "java/lang/Thread"
    | 2 => "A"
    | _ => "B"
  loader _ := 0
  isInterface _ := false
  methods
    | 1 => [publicRun 1]
    | 2 => [publicRun 2]
    | _ => []
  my_class := by
    intro c m h
    split at h <;> simp_all [publicRun]
  my_index := by
    intro c i m h
    split at h <;> rcases i with _ | i <;> simp_all [publicRun]
    all_goals rw [← h]

/-- The object `7` of a class is to be started by a thread with one handle. -/
def beforeStart (cls : ℕ) : ThreadVm where
  hasScheduler := true
  activeThreads := [⟨0, some 1, some []⟩]
  threadCreationEpoch := 1
  nextTid := 1
  executions := []
  handles := [none]
  descriptor _ := ⟨cls, 0⟩
  eetop _ := none

theorem start_overriding : StartRight threadSubclasses (publicRun 1) (beforeStart 2) 7 :=
  (start_right_iff ⟨by decide, rfl, rfl, rfl, rfl⟩ (.single rfl)).mpr
    ⟨rfl, by decide, publicRun 2, by decide, rfl, rfl, rfl⟩

/-- A `run` that is inherited is not found. -/
theorem start_inherited :
    ThreadRun threadSubclasses (publicRun 1) ∧ threadSubclasses.Subclass ⟨3, 0⟩ ⟨1, 0⟩ ∧
      threadSubclasses.Selects (publicRun 1) ⟨3, 0⟩ (publicRun 2) ∧
      ¬ StartRight threadSubclasses (publicRun 1) (beforeStart 3) 7 := by
  have hrun : ThreadRun threadSubclasses (publicRun 1) := ⟨by decide, rfl, rfl, rfl, rfl⟩
  have hsub : threadSubclasses.Subclass ⟨2, 0⟩ ⟨1, 0⟩ := .single rfl
  have hselects : threadSubclasses.Selects (publicRun 1) ⟨2, 0⟩ (publicRun 2) :=
    (ClassWorld.selects_declared_iff hrun hsub (by decide)).mpr ⟨rfl, rfl, rfl⟩
  have hnone : ∀ y ∈ threadSubclasses.methodsOf ⟨3, 0⟩,
      ¬ threadSubclasses.Overrides y (publicRun 1) := nofun
  constructor
  · exact hrun
  constructor
  · exact .head rfl hsub
  constructor
  · exact .inherited rfl hselects hnone
  · intro ⟨s', t, x, hstart, _⟩
    have hnull : (beforeStart 3).start0 threadSubclasses 7 = none := by
      rw [start0_eq rfl (by decide)]
      rfl
    rw [hnull] at hstart
    cases hstart

end TraceJvm
