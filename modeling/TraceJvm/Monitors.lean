import Mathlib.Algebra.Order.Ring.Int
import TraceJvm.Lib.Transition

/-! `monitors.c` with `Object.wait0`, `notify` and `notifyAll`. Every yield of a coroutine ends a
transition, so the runs are all interleavings of the threads. Threads are named by their `tid`. -/
namespace TraceJvm

open Function

/-- `monitor_data`; `none` stands for `NOT_HELD_TID`. -/
structure MonitorData where
  markWord : ℕ
  tid : Option ℕ
  /-- `volatile u32 hold_count` -/
  holdCount : ℕ

/-- `header_word`: a mark word until the object is first locked. -/
inductive HeaderWord where
  | mark (word : ℕ)
  | expanded (data : MonitorData)

def HeaderWord.inspectMonitor : HeaderWord → Option MonitorData
  | .mark _ => none
  | .expanded m => some m

/-- The coroutine in which a thread is suspended, with its `wakeup_info`. -/
inductive MonitorCall where
  | running
  /-- `monitor_acquire`, as `RR_MONITOR_ENTER_WAITING` -/
  | acquiring (obj : ℕ) (ready : Bool)
  /-- `wait0`, as `RR_MONITOR_WAIT` -/
  | waiting (obj holdCount wakeupUs : ℕ) (ready : Bool)
  /-- `monitor_reacquire_hold_count` called by `wait0`, as `RR_MONITOR_ENTER_WAITING` -/
  | reacquiring (obj holdCount : ℕ) (ready : Bool)
  deriving DecidableEq

def MonitorCall.wake : MonitorCall → MonitorCall
  | .running => .running
  | .acquiring obj _ => .acquiring obj true
  | .waiting obj n us _ => .waiting obj n us true
  | .reacquiring obj n _ => .reacquiring obj n true

inductive MonitorResult where
  | ok
  | failed
  | outOfMemory
  | illegalMonitorState
  | interrupted
  deriving DecidableEq

/-- Object headers and the threads of the scheduler. `unmatched` and `returned` record history
and are read by no transition. -/
structure MonitorVm where
  header : ℕ → HeaderWord
  call : ℕ → MonitorCall
  interrupted : ℕ → Bool
  roundRobin : List ℕ
  /-- Acquisitions of an object by a thread without a release. -/
  unmatched : ℕ → ℕ → ℕ
  returned : Option (ℕ × MonitorResult)

namespace MonitorData

/-- The body of the acquiring loop; `none` where the monitor is contended. -/
def acquire (m : MonitorData) (t : ℕ) : Option MonitorData :=
  if m.tid = none then some { m with tid := some t, holdCount := 1 }
  else if m.tid = some t then some { m with holdCount := (m.holdCount + 1) % 2 ^ 32 }
  else none

/-- A newly allocated monitor of an object with the given mark word. -/
def fresh (word : ℕ) : MonitorData := ⟨word, none, 0⟩

end MonitorData

namespace MonitorVm

def monitor (s : MonitorVm) (obj : ℕ) : Option MonitorData := (s.header obj).inspectMonitor

def setMonitor (s : MonitorVm) (obj : ℕ) (m : MonitorData) : MonitorVm :=
  { s with header := update s.header obj (.expanded m) }

def setUnmatched (s : MonitorVm) (t obj n : ℕ) : MonitorVm :=
  { s with unmatched := update s.unmatched t (update (s.unmatched t) obj n) }

/-- The call of thread `t` ends. -/
def returns (s : MonitorVm) (t : ℕ) (r : MonitorResult) : MonitorVm :=
  { s with call := update s.call t .running, returned := some (t, r) }

/-- The call of thread `t` yields. -/
def suspend (s : MonitorVm) (t : ℕ) (c : MonitorCall) : MonitorVm :=
  { s with call := update s.call t c, returned := none }

def wake (s : MonitorVm) (t : ℕ) : MonitorVm :=
  { s with call := update s.call t (s.call t).wake }

def waitsFor (s : MonitorVm) (obj t : ℕ) : Bool :=
  match s.call t with
  | .waiting o _ _ _ => o = obj
  | _ => false

def entersFor (s : MonitorVm) (obj t : ℕ) : Bool :=
  match s.call t with
  | .acquiring o _ => o = obj
  | .reacquiring o _ _ => o = obj
  | _ => false

def monitorNotifyOne (s : MonitorVm) (obj : ℕ) : MonitorVm :=
  match s.roundRobin.find? (s.waitsFor obj) with
  | none => s
  | some t => s.wake t

def monitorNotifyAll (s : MonitorVm) (obj : ℕ) : MonitorVm :=
  (s.roundRobin.filter (s.waitsFor obj)).foldl wake s

def monitorExitHandler (s : MonitorVm) (obj : ℕ) : MonitorVm :=
  match s.roundRobin.find? (s.entersFor obj) with
  | none => s
  | some t => s.wake t

/-- `monitor_acquire` from its acquiring loop on. Without monitor data it would read through the
mark word. -/
def acquireLoop (s : MonitorVm) (t obj : ℕ) (ready : Bool) : Option MonitorVm :=
  match s.monitor obj with
  | none => none
  | some m =>
      match m.acquire t with
      | some m' =>
          some (((s.setMonitor obj m').setUnmatched t obj (s.unmatched t obj + 1)).returns t .ok)
      | none => some (s.suspend t (.acquiring obj ready))

/-- `monitor_acquire`; `allocated` is the outcome of `allocate_monitor_for`. -/
def monitorAcquire (s : MonitorVm) (t obj : ℕ) (allocated : Bool) : Option MonitorVm :=
  match s.header obj with
  | .expanded _ => s.acquireLoop t obj false
  | .mark w =>
      if allocated then (s.setMonitor obj (.fresh w)).acquireLoop t obj false
      else some (s.returns t .outOfMemory)

def monitorRelease (s : MonitorVm) (t obj : ℕ) : MonitorVm :=
  match s.monitor obj with
  | none => s.returns t .failed
  | some m =>
      if m.tid ≠ some t then s.returns t .failed
      else if m.holdCount = 0 then s.returns t .failed
      else
        let n := m.holdCount - 1
        let s := s.setUnmatched t obj (s.unmatched t obj - 1)
        if n = 0 then
          ((s.setMonitor obj { m with tid := none, holdCount := 0 }).monitorExitHandler obj).returns
            t .ok
        else (s.setMonitor obj { m with holdCount := n }).returns t .ok

def currentThreadHoldCount (s : MonitorVm) (t obj : ℕ) : ℕ :=
  match s.monitor obj with
  | none => 0
  | some m => if m.tid ≠ some t then 0 else m.holdCount

def monitorReleaseAllHoldCount (s : MonitorVm) (t obj : ℕ) : ℕ × MonitorVm :=
  match s.monitor obj with
  | none => (0, s)
  | some m =>
      if m.tid ≠ some t then (0, s)
      else if m.holdCount = 0 then (0, s)
      else
        (m.holdCount,
          (s.setMonitor obj { m with tid := none, holdCount := 0 }).monitorExitHandler obj)

/-- `Object.wait0` up to its yield. -/
def wait0 (s : MonitorVm) (t obj timeoutMillis now : ℕ) : MonitorVm :=
  if s.interrupted t then
    { s with interrupted := update s.interrupted t false }.returns t .interrupted
  else
    let r := s.monitorReleaseAllHoldCount t obj
    if r.1 = 0 then r.2.returns t .illegalMonitorState
    else
      let wakeupUs := if timeoutMillis = 0 then 0 else now + timeoutMillis * 1000
      r.2.suspend t (.waiting obj r.1 wakeupUs false)

/-- The end of `Object.wait0`, after the monitor has been acquired again. -/
def finishWait (s : MonitorVm) (t : ℕ) : MonitorVm :=
  if s.interrupted t then
    { s with interrupted := update s.interrupted t false }.returns t .interrupted
  else s.returns t .ok

/-- `monitor_reacquire_hold_count` from its loop on, and the rest of `wait0`. The result -1 for a
monitor that the thread already owns trips an assertion of `wait0`. -/
def reacquireLoop (s : MonitorVm) (t obj holdCount : ℕ) (ready : Bool) : Option MonitorVm :=
  match s.monitor obj with
  | none => none
  | some m =>
      if m.tid = none then
        some ((s.setMonitor obj { m with tid := some t, holdCount := holdCount }).finishWait t)
      else if m.tid = some t then none
      else some (s.suspend t (.reacquiring obj holdCount ready))

/-- `Object.notify` and `Object.notifyAll` -/
def notify (s : MonitorVm) (t obj : ℕ) (all : Bool) : MonitorVm :=
  if s.currentThreadHoldCount t obj = 0 then s.returns t .illegalMonitorState
  else (if all then s.monitorNotifyAll obj else s.monitorNotifyOne obj).returns t .ok

/-- `is_sleeping`, for the waits of this module. -/
def isSleeping (s : MonitorVm) (t time : ℕ) : Bool :=
  match s.call t with
  | .running => false
  | .acquiring _ ready => !ready
  | .reacquiring _ _ ready => !ready
  | .waiting _ _ wakeupUs ready =>
      !ready && (!s.interrupted t && (wakeupUs = 0 || time ≤ wakeupUs))

def resume (s : MonitorVm) (t : ℕ) : Option MonitorVm :=
  match s.call t with
  | .running => none
  | .acquiring obj ready => s.acquireLoop t obj ready
  | .waiting obj n _ _ => s.reacquireLoop t obj n false
  | .reacquiring obj n ready => s.reacquireLoop t obj n ready

/-! ### What the wake-ups change -/

theorem wake_call (s : MonitorVm) (t u : ℕ) :
    (s.wake t).call u = if u = t then (s.call t).wake else s.call u :=
  update_apply ..

theorem wake_wake (c : MonitorCall) : c.wake.wake = c.wake := by
  cases c <;> rfl

theorem foldl_wake_call (l : List ℕ) (s : MonitorVm) (u : ℕ) :
    (l.foldl wake s).call u = if u ∈ l then (s.call u).wake else s.call u := by
  induction l generalizing s with
  | nil => rfl
  | cons w l ih =>
    rw [List.foldl_cons, ih, wake_call]
    by_cases hu : u = w
    · rw [if_pos hu, ← hu, wake_wake, if_pos List.mem_cons_self]
      split
      · rfl
      · rfl
    · rw [if_neg hu]
      simp only [List.mem_cons, hu, false_or]

theorem foldl_wake_rest (l : List ℕ) (s : MonitorVm) : (l.foldl wake s).header = s.header ∧
    (l.foldl wake s).unmatched = s.unmatched ∧ (l.foldl wake s).roundRobin = s.roundRobin := by
  induction l generalizing s with
  | nil => exact ⟨rfl, rfl, rfl⟩
  | cons w l ih => exact ih (s.wake w)

theorem monitorNotifyAll_call (s : MonitorVm) (obj u : ℕ) : (s.monitorNotifyAll obj).call u =
    if u ∈ s.roundRobin ∧ s.waitsFor obj u = true then (s.call u).wake else s.call u := by
  unfold monitorNotifyAll
  rw [foldl_wake_call]
  simp only [List.mem_filter]

end MonitorVm

inductive MonitorEvent where
  | acquire (t obj : ℕ) (allocated : Bool)
  | release (t obj : ℕ)
  | wait (t obj timeoutMillis now : ℕ)
  | notify (t obj : ℕ) (all : Bool)
  | interrupt (t : ℕ)
  /-- The scheduler runs the thread unless it is asleep at the given time. -/
  | step (t time : ℕ)
  /-- `rr_scheduler_execute_immediately` runs the thread also when it is asleep. -/
  | executeImmediately (t : ℕ)
  /-- The scheduler's list changes. -/
  | reschedule (roundRobin : List ℕ)

def monitorStep (s : MonitorVm) : MonitorEvent → Option MonitorVm
  | .acquire t obj allocated =>
      if s.call t = .running then s.monitorAcquire t obj allocated else none
  | .release t obj => if s.call t = .running then some (s.monitorRelease t obj) else none
  | .wait t obj timeoutMillis now =>
      if s.call t = .running then some (s.wait0 t obj timeoutMillis now) else none
  | .notify t obj all => if s.call t = .running then some (s.notify t obj all) else none
  | .interrupt t =>
      some { s with interrupted := update s.interrupted t true, returned := none }
  | .step t time => if s.isSleeping t time then none else s.resume t
  | .executeImmediately t => s.resume t
  | .reschedule l => some { s with roundRobin := l, returned := none }

end TraceJvm
