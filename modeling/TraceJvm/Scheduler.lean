import TraceJvm.Lib.Transition
import Mathlib.Data.Int.Notation
import Mathlib.Data.List.Nodup

/-! `roundrobin_scheduler.c`. A `thread_info` is found by its thread, so the fields of all of them
are functions of the thread. What the calls themselves do is chosen by the environment. -/
namespace TraceJvm

open Function

/-- `rr_wakeup_kind` -/
inductive WakeupKind where
  | yielding
  | sleep
  | referencePending
  | threadPark
  | monitorEnterWaiting
  | monitorWait
  deriving DecidableEq

/-- `rr_wakeup_info` -/
structure WakeupInfo where
  kind : WakeupKind
  wakeupUs : UInt64
  monitor : ℕ
  ready : Bool

/-- `scheduler_status_t` -/
inductive SchedulerStatus where
  | done
  | more
  | inval

/-- `execution_record`, as far as the scheduler writes it. -/
structure ExecutionRecord where
  status : SchedulerStatus
  returned : ℕ
  jsHandle : ℤ
  thread : ℕ

/-- `pending_call`; `started` tells whether the `_state` of the call has left zero. -/
structure PendingCall where
  record : ℕ
  returnsReference : Bool
  started : Bool

structure ThreadFlags where
  daemon : ℕ → Bool
  interrupted : ℕ → Bool
  unparkPermit : ℕ → Bool
  /-- `thread_obj` -/
  threadObj : ℕ → ℕ
  /-- `vm->reference_pending_list` is not null. -/
  referencePending : Bool

/-- The scheduler. `enqueued`, `begun` and `finished` record the history of each thread, in order,
and are read by no transition. -/
structure Scheduler where
  roundRobin : List ℕ
  callQueue : ℕ → List PendingCall
  wakeupInfo : ℕ → Option WakeupInfo
  flags : ThreadFlags
  records : List ExecutionRecord
  enqueued : ℕ → List ℕ
  begun : ℕ → List ℕ
  finished : ℕ → List ℕ

structure CallRequest where
  thread : ℕ
  returnsReference : Bool

/-- The future that `call_interpreter` returns. -/
inductive CallFuture where
  /-- `FUTURE_READY` with the result and the handle that would be made for it -/
  | ready (result : ℕ) (handle : ℤ)
  | notReady (wakeup : Option WakeupInfo)

/-- One run of `call_interpreter`: the threads that it starts, and its future. -/
structure Poll where
  spawned : List CallRequest
  future : CallFuture

namespace Scheduler

/-- `rr_scheduler_init` -/
def init (f : ThreadFlags) : Scheduler where
  roundRobin := []
  callQueue _ := []
  wakeupInfo _ := none
  flags := f
  records := []
  enqueued _ := []
  begun _ := []
  finished _ := []

def isSleeping (s : Scheduler) (t : ℕ) (time : UInt64) : Bool :=
  match s.wakeupInfo t with
  | none => false
  | some w =>
      if w.kind = .referencePending then !s.flags.referencePending
      else if w.kind = .sleep ∨ (w.kind = .threadPark ∧ s.flags.unparkPermit t = false) ∨
          (w.kind = .monitorWait ∧ w.ready = false) ∨
          (w.kind = .monitorEnterWaiting ∧ w.ready = false) then
        let interrupted := s.flags.interrupted t && w.kind ≠ .monitorEnterWaiting
        !interrupted && (w.wakeupUs = 0 || time ≤ w.wakeupUs)
      else false

/-- The first loop of `get_next_thr`: rotates the list until a thread is awake. -/
def rotate (s : Scheduler) (time : UInt64) : ℕ → List ℕ → Option ℕ × List ℕ
  | 0, l => (none, l)
  | _ + 1, [] => (none, [])
  | n + 1, t :: l => if !s.isSleeping t time then (some t, l ++ [t]) else rotate s time n (l ++ [t])

def wakeupTime (s : Scheduler) (t : ℕ) : UInt64 :=
  match s.wakeupInfo t with
  | none => 0
  | some w => w.wakeupUs

/-- The second loop of `get_next_thr`, from index `i`: the thread `info`, the index `best_i` and
the time `closest`. -/
def closest (s : Scheduler) : ℕ → List ℕ → ℕ × ℕ × UInt64 → ℕ × ℕ × UInt64
  | _, [], r => r
  | i, t :: l, (info, best, time) =>
      if s.wakeupTime t < time then closest s (i + 1) l (t, i, s.wakeupTime t)
      else closest s (i + 1) l (info, best, time)

/-- `get_next_thr`; `none` for an empty list. -/
def getNextThr (s : Scheduler) (time : UInt64) : Option (ℕ × List ℕ) :=
  match s.rotate time s.roundRobin.length s.roundRobin with
  | (some t, l) => some (t, l)
  | (none, l) =>
      match l.getLast? with
      | none => none
      | some last =>
          let r := s.closest 0 l (last, 0, 18446744073709551615)
          match l[r.2.1]? with
          | none => none
          | some best => some (r.1, l.eraseIdx r.2.1 ++ [best])

def onlyDaemonsRunning (s : Scheduler) : Bool := s.roundRobin.all s.flags.daemon

def monitorNotifyAll (s : Scheduler) (monitor : ℕ) : Scheduler :=
  { s with wakeupInfo := fun t =>
      (s.wakeupInfo t).map fun w =>
        if t ∈ s.roundRobin ∧ w.kind = .monitorWait ∧ w.monitor = monitor then
          { w with ready := true }
        else w }

def setQueue (s : Scheduler) (t : ℕ) (q : List PendingCall) : Scheduler :=
  { s with callQueue := update s.callQueue t q }

/-- A new `thread_info`, zeroed and appended to the list. -/
def newInfo (s : Scheduler) (t : ℕ) : Scheduler :=
  { s with
    roundRobin := s.roundRobin ++ [t]
    callQueue := update s.callQueue t []
    wakeupInfo := update s.wakeupInfo t none }

/-- `rr_scheduler_run` -/
def run (s : Scheduler) (c : CallRequest) : Scheduler :=
  let s := if c.thread ∈ s.roundRobin then s else s.newInfo c.thread
  { s with
    callQueue := update s.callQueue c.thread
      (s.callQueue c.thread ++ [⟨s.records.length, c.returnsReference, false⟩])
    records := s.records ++ [⟨.more, 0, 0, c.thread⟩]
    enqueued := update s.enqueued c.thread (s.enqueued c.thread ++ [s.records.length]) }

/-- `call_interpreter` on the first call of a thread, up to its return. `Thread.start0` queues a
call for a thread that it has just made. -/
def callInterpreter (s : Scheduler) (t : ℕ) (c : PendingCall) (rest : List PendingCall)
    (p : Poll) : Option Scheduler :=
  if ∀ r ∈ p.spawned, r.thread ∉ s.roundRobin then
    let s := if c.started then s
      else { s with begun := update s.begun t (s.begun t ++ [c.record]) }
    some (p.spawned.foldl run (s.setQueue t ({ c with started := true } :: rest)))
  else none

def finish (s : Scheduler) (t : ℕ) (c : PendingCall) : Scheduler :=
  { s with finished := update s.finished t (s.finished t ++ [c.record]) }

def unshift (s : Scheduler) (t : ℕ) : Scheduler :=
  let s := s.setQueue t (s.callQueue t).tail
  if s.callQueue t = [] then
    { s with roundRobin := s.roundRobin.erase t }.monitorNotifyAll (s.flags.threadObj t)
  else s

def status (s : Scheduler) : SchedulerStatus :=
  if s.roundRobin = [] ∨ s.onlyDaemonsRunning then .done else .more

/-- The part of `rr_scheduler_step` that follows the call. -/
def afterCall (s : Scheduler) (t : ℕ) (c : PendingCall) : CallFuture → Scheduler
  | .ready result handle =>
      let jsHandle := if c.returnsReference && result ≠ 0 then handle else -1
      ({ s with
        records := s.records.modify c.record fun r =>
          { r with status := .done, returned := result, jsHandle := jsHandle } }.finish t c).unshift
            t
  | .notReady wakeup => { s with wakeupInfo := update s.wakeupInfo t wakeup }

/-- `rr_scheduler_step` with a bound on its calls of itself, each of which shortens the list. The
clock is read twice in each. -/
def stepAux (clock : ℕ → UInt64) (p : Poll) : ℕ → Scheduler → Option (SchedulerStatus × Scheduler)
  | 0, _ => none
  | n + 1, s =>
      if s.roundRobin = [] ∨ s.onlyDaemonsRunning then some (.done, s)
      else
        match s.getNextThr (clock (2 * n + 1)) with
        | none => some (.done, s)
        | some (t, l) =>
            let s := { s with roundRobin := l }
            if s.isSleeping t (clock (2 * n)) then some (.more, s)
            else
              let s := { s with wakeupInfo := update s.wakeupInfo t none }
              match s.callQueue t with
              | [] => stepAux clock p n { s with roundRobin := s.roundRobin.dropLast }
              | c :: rest =>
                  (s.callInterpreter t c rest p).map fun s =>
                    let s := s.afterCall t c p.future
                    (s.status, s)

/-- `rr_scheduler_step` -/
def step (s : Scheduler) (clock : ℕ → UInt64) (p : Poll) : Option (SchedulerStatus × Scheduler) :=
  stepAux clock p (s.roundRobin.length + 1) s

/-- The loop of `rr_scheduler_execute_immediately`. After `arrdel` the pointer `call` reads the
call that has moved to the front of the queue, and the deleted one where none is left. -/
def executeLoop (t record : ℕ) : List Poll → Scheduler → Option (SchedulerStatus × Scheduler)
  | polls, s =>
      match s.callQueue t with
      | [] => some (.done, s)
      | c :: rest =>
          match polls with
          | [] => none
          | p :: polls =>
              match s.callInterpreter t c rest p with
              | none => none
              | some s =>
                  match p.future with
                  | .notReady _ => some (.inval, s)
                  | .ready _ _ =>
                      let s := (s.setQueue t (s.callQueue t).tail).finish t c
                      if ((s.callQueue t).headD c).record = record then some (.done, s)
                      else executeLoop t record polls s
  termination_by structural polls => polls

/-- `rr_scheduler_execute_immediately` -/
def executeImmediately (s : Scheduler) (record : ℕ) (polls : List Poll) :
    Option (SchedulerStatus × Scheduler) :=
  match s.records[record]? with
  | none => none
  | some r =>
      if r.thread ∈ s.roundRobin then executeLoop r.thread record polls s else some (.done, s)

end Scheduler

inductive SchedulerEvent where
  /-- The host queues a call. -/
  | run (c : CallRequest)
  | step (clock : ℕ → UInt64) (p : Poll)
  | executeImmediately (record : ℕ) (polls : List Poll)
  /-- The memory behind `wakeup_info` changes: a notification, or the coroutine itself. -/
  | wakeup (t : ℕ) (w : WakeupInfo)
  /-- Threads are interrupted or unparked, or references become pending. -/
  | flags (f : ThreadFlags)

def schedulerStep (s : Scheduler) : SchedulerEvent → Option Scheduler
  | .run c => some (s.run c)
  | .step clock p => (s.step clock p).map Prod.snd
  | .executeImmediately record polls => (s.executeImmediately record polls).map Prod.snd
  | .wakeup t w =>
      some { s with wakeupInfo := update s.wakeupInfo t ((s.wakeupInfo t).map fun _ => w) }
  | .flags f => some { s with flags := f }

end TraceJvm
