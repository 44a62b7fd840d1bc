import TraceJvm.Lib.SlotTable
import TraceJvm.SchedulerDelivery

/-! The scheduler together with what a completed call leaves behind: the copies of the arguments,
the table `vm->js_handles` and the execution records that are freed. Handles are numbered by their
index in the table, and objects by positive numbers. -/
namespace TraceJvm

open Transition Function List Option Scheduler SlotTable

inductive HandleOwner where
  /-- A `BaseHandle` of the host. -/
  | host (n : ℕ)
  | record (r : ℕ)
  deriving DecidableEq

/-- A handle that `make_js_handle` has returned and that its owner has not dropped. -/
structure HeldHandle where
  owner : HandleOwner
  index : ℕ
  object : ℕ
  deriving DecidableEq

/-- The virtual machine as the scheduler sees it. `held`, `made` and `dropped` record the history of
the handles and are read by no transition. -/
structure SchedulerVm where
  scheduler : Scheduler
  jsHandles : List (Option ℕ)
  /-- The records whose calls have had their copy of the arguments freed. -/
  freedArgs : List ℕ
  freedRecords : List ℕ
  /-- `rr_scheduler_uninit` has run. -/
  shutDown : Bool
  held : List HeldHandle
  /-- The records for which a handle was made, with its index. -/
  made : List (ℕ × ℤ)
  /-- The records whose `js_handle` was dropped, with its value. -/
  dropped : List (ℕ × ℤ)

namespace SchedulerVm

def init (f : ThreadFlags) : SchedulerVm where
  scheduler := .init f
  jsHandles := []
  freedArgs := []
  freedRecords := []
  shutDown := false
  held := []
  made := []
  dropped := []

/-- The part of `rr_scheduler_step` that follows the call. A freed record is not written to. -/
def afterCall (v : SchedulerVm) (t : ℕ) (c : PendingCall) : CallFuture → Option SchedulerVm
  | .notReady wakeup => some { v with scheduler := v.scheduler.afterCall t c (.notReady wakeup) }
  | .ready result _ =>
      if c.record ∈ v.freedRecords then none
      else if c.returnsReference && result ≠ 0 then
        let r := put v.jsHandles result
        some { v with
          scheduler := v.scheduler.afterCall t c (.ready result r.2)
          jsHandles := r.1
          freedArgs := c.record :: v.freedArgs
          held := ⟨.record c.record, r.2, result⟩ :: v.held
          made := (c.record, (r.2 : ℤ)) :: v.made }
      else
        some { v with
          scheduler := v.scheduler.afterCall t c (.ready result (-1))
          freedArgs := c.record :: v.freedArgs }

/-- `rr_scheduler_step` with a bound on its calls of itself. `poll` is what `call_interpreter` does
on the call of a record. -/
def stepAux (clock : ℕ → UInt64) (poll : ℕ → Poll) :
    ℕ → SchedulerVm → Option (SchedulerStatus × SchedulerVm)
  | 0, _ => none
  | n + 1, v =>
      if v.scheduler.roundRobin = [] ∨ v.scheduler.onlyDaemonsRunning then some (.done, v)
      else
        match v.scheduler.getNextThr (clock (2 * n + 1)) with
        | none => some (.done, v)
        | some (t, l) =>
            let s := { v.scheduler with roundRobin := l }
            if s.isSleeping t (clock (2 * n)) then some (.more, { v with scheduler := s })
            else
              let s := { s with wakeupInfo := update s.wakeupInfo t none }
              match s.callQueue t with
              | [] =>
                  stepAux clock poll n
                    { v with scheduler := { s with roundRobin := s.roundRobin.dropLast } }
              | c :: rest =>
                  (s.callInterpreter t c rest (poll c.record)).bind fun s =>
                    (afterCall { v with scheduler := s } t c (poll c.record).future).map fun v =>
                      (v.scheduler.status, v)

/-- `rr_scheduler_step` -/
def step (v : SchedulerVm) (clock : ℕ → UInt64) (poll : ℕ → Poll) :
    Option (SchedulerStatus × SchedulerVm) :=
  stepAux clock poll (v.scheduler.roundRobin.length + 1) v

/-- `rr_scheduler_execute_immediately` -/
def executeImmediately (v : SchedulerVm) (record : ℕ) (polls : List Poll) :
    Option (SchedulerStatus × SchedulerVm) :=
  if record ∈ v.freedRecords then none
  else (v.scheduler.executeImmediately record polls).map fun r =>
    (r.1, { v with scheduler := r.2 })

/-- `free_execution_record`; `none` if the record has been freed before. -/
def freeExecutionRecord (v : SchedulerVm) (r : ℕ) : Option SchedulerVm :=
  match v.scheduler.records[r]? with
  | none => none
  | some rec =>
      if r ∈ v.freedRecords then none
      else if rec.jsHandle ≠ -1 then
        some { v with
          jsHandles := if 0 ≤ rec.jsHandle then drop v.jsHandles rec.jsHandle.toNat
            else v.jsHandles
          freedRecords := r :: v.freedRecords
          held := v.held.filter fun h => h.owner ≠ .record r
          dropped := (r, rec.jsHandle) :: v.dropped }
      else some { v with freedRecords := r :: v.freedRecords }

/-- The calls that are still queued, in the order of `rr_scheduler_uninit`. -/
def pendingCalls (v : SchedulerVm) : List PendingCall :=
  v.scheduler.roundRobin.flatMap v.scheduler.callQueue

/-- `free_thread_info_shutdown` for the calls of all threads. -/
def freePending (v : SchedulerVm) : List PendingCall → Option SchedulerVm
  | [] => some v
  | c :: cs => (v.freeExecutionRecord c.record).bind fun v =>
      freePending { v with freedArgs := c.record :: v.freedArgs } cs

/-- `rr_scheduler_uninit`: the records that are left are freed without a look at their handles. -/
def uninit (v : SchedulerVm) : Option SchedulerVm :=
  (v.freePending v.pendingCalls).map fun v =>
    { v with
      freedRecords := List.range v.scheduler.records.length
      shutDown := true }

/-- `make_js_handle` for a handle of the host. -/
def makeJsHandle (v : SchedulerVm) (n object : ℕ) : SchedulerVm :=
  let r := put v.jsHandles object
  { v with jsHandles := r.1, held := ⟨.host n, r.2, object⟩ :: v.held }

/-- `drop_js_handle` on a handle of the host. -/
def dropJsHandle (v : SchedulerVm) (h : HeldHandle) : SchedulerVm :=
  { v with jsHandles := drop v.jsHandles h.index, held := v.held.erase h }

end SchedulerVm

inductive SchedulerVmEvent where
  | run (c : CallRequest)
  | step (clock : ℕ → UInt64) (poll : ℕ → Poll)
  | executeImmediately (record : ℕ) (polls : List Poll)
  | wakeup (t : ℕ) (w : WakeupInfo)
  | flags (f : ThreadFlags)
  /-- The host makes its `n`th handle. -/
  | makeJsHandle (n object : ℕ)
  /-- The host drops a handle of its own. -/
  | dropJsHandle (n index object : ℕ)
  | freeExecutionRecord (r : ℕ)
  | uninit

namespace SchedulerVm

def schedulerOnly (v : SchedulerVm) (e : SchedulerEvent) : Option SchedulerVm :=
  if v.shutDown then none
  else (schedulerStep v.scheduler e).map fun s => { v with scheduler := s }

end SchedulerVm

def schedulerVmStep (v : SchedulerVm) : SchedulerVmEvent → Option SchedulerVm
  | .run c => v.schedulerOnly (.run c)
  | .wakeup t w => v.schedulerOnly (.wakeup t w)
  | .flags f => v.schedulerOnly (.flags f)
  | .step clock poll => if v.shutDown then none else (v.step clock poll).map Prod.snd
  | .executeImmediately record polls =>
      if v.shutDown then none else (v.executeImmediately record polls).map Prod.snd
  | .makeJsHandle n object => if object = 0 then none else some (v.makeJsHandle n object)
  | .dropJsHandle n index object =>
      if ⟨.host n, index, object⟩ ∈ v.held then some (v.dropJsHandle ⟨.host n, index, object⟩)
      else none
  | .freeExecutionRecord r => if v.shutDown then none else v.freeExecutionRecord r
  | .uninit => if v.shutDown then none else v.uninit

/-! ### What a step of the scheduler can do -/

def PendingMore (s : Scheduler) : Prop :=
  ∀ t, ∀ c ∈ s.callQueue t, ∃ rec, s.records[c.record]? = some rec ∧ rec.status = .more

namespace PendingMore

variable {s s' : Scheduler} {t : ℕ}

theorem mono (h : PendingMore s) (hrec : s.records <+: s'.records)
    (hq : ∀ u, ∀ d ∈ s'.callQueue u, ∃ c ∈ s.callQueue u, d.record = c.record) :
    PendingMore s' := by
  intro u d hd
  obtain ⟨c, hc, hdc⟩ := hq u d hd
  obtain ⟨rec, hr, hmore⟩ := h u c hc
  refine ⟨rec, ?_, hmore⟩
  rw [hdc]
  obtain ⟨l, hl⟩ := hrec
  rw [← hl, List.getElem?_append_left (List.getElem?_eq_some_iff.mp hr).1]
  exact hr

theorem run (h : PendingMore s) (c : CallRequest) : PendingMore (s.run c) := by
  have hold : ∀ u, ∀ d ∈ s.callQueue u, ∃ rec,
      (s.records ++ [⟨.more, 0, 0, c.thread⟩])[d.record]? = some rec ∧ rec.status = .more := by
    intro u d hd
    obtain ⟨rec, hr, hmore⟩ := h u d hd
    exact ⟨rec, by rw [List.getElem?_append_left (List.getElem?_eq_some_iff.mp hr).1, hr], hmore⟩
  intro u d hd
  unfold Scheduler.run at hd ⊢
  by_cases hin : c.thread ∈ s.roundRobin
  · simp only [if_pos hin] at hd ⊢
    by_cases hu : u = c.thread
    · subst hu
      rw [update_self, mem_append, mem_singleton] at hd
      rcases hd with hd | rfl
      · exact hold _ d hd
      · exact ⟨_, getElem?_concat_length, rfl⟩
    · rw [update_of_ne hu] at hd
      exact hold u d hd
  · simp only [if_neg hin, Scheduler.newInfo] at hd ⊢
    by_cases hu : u = c.thread
    · subst hu
      simp only [update_self, nil_append, mem_singleton] at hd
      rw [hd]
      exact ⟨_, getElem?_concat_length, rfl⟩
    · rw [update_of_ne hu, update_of_ne hu] at hd
      exact hold u d hd

theorem foldl_run (h : PendingMore s) (l : List CallRequest) :
    PendingMore (l.foldl Scheduler.run s) := by
  induction l generalizing s with
  | nil => exact h
  | cons c l ih => exact ih (h.run c)

theorem callInterpreter {c : PendingCall} {rest : List PendingCall} {p : Poll} (h : PendingMore s)
    (hq : s.callQueue t = c :: rest) (hcall : s.callInterpreter t c rest p = some s') :
    PendingMore s' := by
  simp only [Scheduler.callInterpreter, ite_none_right_eq_some, some.injEq] at hcall
  obtain ⟨-, rfl⟩ := hcall
  apply foldl_run
  apply h.mono
  · cases c.started <;> exact prefix_rfl
  · intro u d hd
    by_cases hu : u = t
    · subst hu
      simp only [Scheduler.setQueue, update_self, mem_cons] at hd
      rcases hd with rfl | hd
      · exact ⟨c, by simp [hq], rfl⟩
      · exact ⟨d, by simp [hq, hd], rfl⟩
    · refine ⟨d, ?_, rfl⟩
      cases hc : c.started <;> simpa [Scheduler.setQueue, hu, hc] using hd

end PendingMore

namespace Scheduler

variable {s s' : Scheduler} {t : ℕ}

theorem run_records (s : Scheduler) (c : CallRequest) :
    (s.run c).records = s.records ++ [⟨.more, 0, 0, c.thread⟩] := by
  unfold run
  by_cases hin : c.thread ∈ s.roundRobin <;> simp [hin, newInfo]

theorem foldl_run_records (s : Scheduler) (l : List CallRequest) :
    (l.foldl run s).records = s.records ++ l.map fun c => ⟨.more, 0, 0, c.thread⟩ := by
  induction l generalizing s with
  | nil => simp
  | cons c l ih => simp [ih, run_records]

theorem callInterpreter_records {c : PendingCall} {rest : List PendingCall} {p : Poll}
    (h : s.callInterpreter t c rest p = some s') :
    s'.records = s.records ++ p.spawned.map fun c => ⟨.more, 0, 0, c.thread⟩ := by
  simp only [callInterpreter, ite_none_right_eq_some, some.injEq] at h
  obtain ⟨-, rfl⟩ := h
  rw [foldl_run_records]
  cases c.started <;> rfl

theorem executeLoop_records {record : ℕ} {polls : List Poll} {st : SchedulerStatus}
    (hloop : executeLoop t record polls s = some (st, s')) :
    ∃ l : List CallRequest, s'.records = s.records ++ l.map fun c => ⟨.more, 0, 0, c.thread⟩ := by
  induction polls generalizing s with
  | nil =>
    rw [executeLoop] at hloop
    split at hloop
    · cases hloop
      exact ⟨[], by simp⟩
    · cases hloop
  | cons p polls ih =>
    rw [executeLoop] at hloop
    split at hloop
    · cases hloop
      exact ⟨[], by simp⟩
    rename_i c rest hq
    dsimp only at hloop
    split at hloop
    · cases hloop
    rename_i s₁ hcall
    have hrec := callInterpreter_records hcall
    split at hloop
    · cases hloop
      exact ⟨_, hrec⟩
    split at hloop
    · cases hloop
      exact ⟨_, hrec⟩
    · obtain ⟨l, hl⟩ := ih hloop
      refine ⟨p.spawned ++ l, ?_⟩
      rw [hl]
      simp [finish, setQueue, hrec]

theorem executeImmediately_records {record : ℕ} {polls : List Poll} {st : SchedulerStatus}
    (hexec : s.executeImmediately record polls = some (st, s')) :
    ∃ l : List CallRequest, s'.records = s.records ++ l.map fun c => ⟨.more, 0, 0, c.thread⟩ := by
  unfold executeImmediately at hexec
  split at hexec
  · cases hexec
  split at hexec
  · exact executeLoop_records hexec
  · cases hexec
    exact ⟨[], by simp⟩

/-- The queues, the records and their history are the same, and every thread with calls is still
listed. -/
structure Rotated (s s' : Scheduler) : Prop where
  callQueue : s'.callQueue = s.callQueue
  records : s'.records = s.records
  finished : s'.finished = s.finished
  listed : ∀ t, s.callQueue t ≠ [] → (t ∈ s'.roundRobin ↔ t ∈ s.roundRobin)
  inv : SchedulerInv s'

theorem Rotated.refl (hi : SchedulerInv s) : s.Rotated s :=
  ⟨rfl, rfl, rfl, fun _ _ => Iff.rfl, hi⟩

end Scheduler

namespace SchedulerVm

inductive StepEffect (poll : ℕ → Poll) (v : SchedulerVm) : SchedulerVm → Prop where
  | idle {s : Scheduler} : v.scheduler.Rotated s → StepEffect poll v { v with scheduler := s }
  | called {s₁ s₂ : Scheduler} {t : ℕ} {c : PendingCall} {rest : List PendingCall}
      {v' : SchedulerVm} :
      v.scheduler.Rotated s₁ → s₁.callQueue t = c :: rest →
      s₁.callInterpreter t c rest (poll c.record) = some s₂ →
      afterCall { v with scheduler := s₂ } t c (poll c.record).future = some v' →
      StepEffect poll v v'

theorem StepEffect.of_rotated {poll : ℕ → Poll} {v v' : SchedulerVm} {s : Scheduler}
    (hrot : v.scheduler.Rotated s) (h : StepEffect poll { v with scheduler := s } v') :
    StepEffect poll v v' := by
  have htrans : ∀ {s' : Scheduler}, s.Rotated s' → v.scheduler.Rotated s' := by
    intro s' hr
    refine ⟨hr.callQueue.trans hrot.callQueue, hr.records.trans hrot.records,
      hr.finished.trans hrot.finished, fun t ht => ?_, hr.inv⟩
    rw [hr.listed t (by rwa [hrot.callQueue]), hrot.listed t ht]
  cases h with
  | idle hr => exact .idle (htrans hr)
  | called hr hq hcall hafter => exact .called (htrans hr) hq hcall hafter

theorem stepAux_effect (clock : ℕ → UInt64) (poll : ℕ → Poll) (n : ℕ)
    {v v' : SchedulerVm} {st : SchedulerStatus} (hi : SchedulerInv v.scheduler)
    (h : stepAux clock poll n v = some (st, v')) : StepEffect poll v v' := by
  induction n generalizing v with
  | zero => cases h
  | succ n ih =>
    rw [stepAux] at h
    split at h
    · cases h
      exact .idle (.refl hi)
    split at h
    · cases h
      exact .idle (.refl hi)
    rename_i u l hnext
    obtain ⟨hperm, hmem, hlast⟩ := getNextThr_spec hnext
    have hi₁ : SchedulerInv { v.scheduler with roundRobin := l } :=
      hi.congr hperm rfl rfl rfl rfl rfl
    dsimp only at h
    split at h
    · cases h
      exact .idle ⟨rfl, rfl, rfl, fun _ _ => hperm.mem_iff, hi₁⟩
    rename_i hawake
    have hi₂ : SchedulerInv { v.scheduler with
        roundRobin := l, wakeupInfo := update v.scheduler.wakeupInfo u none } :=
      hi₁.congr (List.Perm.refl _) rfl rfl rfl rfl rfl
    split at h
    · -- the thread has no calls and stands last in the list
      rename_i hempty
      have hl : l.getLast? = some u := hlast _ ((Bool.not_eq_true _).mp hawake)
      have hsplit := dropLast_append_getLast? u hl
      have hout : ∀ w ∈ l, w ∉ l.dropLast → v.scheduler.callQueue w = [] := by
        intro w hw hnot
        rw [← hsplit, mem_append] at hw
        rcases hw with hw | hw
        · exact absurd hw hnot
        · rw [mem_singleton.mp hw]
          exact hempty
      have hi₃ := hi₂.remove (dropLast_sublist l) hout
      refine StepEffect.of_rotated ?_ (ih hi₃ h)
      refine ⟨rfl, rfl, rfl, fun w hw => ?_, hi₃⟩
      rw [← hperm.mem_iff]
      refine ⟨fun hin => (dropLast_sublist l).subset hin, fun hin => ?_⟩
      by_contra hnot
      exact hw (hout w hin hnot)
    · rename_i c rest hq
      simp only [bind_eq_some_iff, map_eq_some_iff, Prod.mk.injEq] at h
      obtain ⟨s₂, hcall, v₁, hafter, -, rfl⟩ := h
      have hrot : v.scheduler.Rotated { v.scheduler with
          roundRobin := l, wakeupInfo := update v.scheduler.wakeupInfo u none } :=
        ⟨rfl, rfl, rfl, fun _ _ => hperm.mem_iff, hi₂⟩
      exact .called hrot hq hcall hafter

theorem step_effect {clock : ℕ → UInt64} {poll : ℕ → Poll} {v v' : SchedulerVm}
    {st : SchedulerStatus} (hi : SchedulerInv v.scheduler)
    (h : v.step clock poll = some (st, v')) : StepEffect poll v v' :=
  stepAux_effect clock poll _ hi h

end SchedulerVm

/-! ### The invariant of the queues -/

namespace Scheduler

theorem unshift_callQueue (s : Scheduler) (t : ℕ) :
    (s.unshift t).callQueue = update s.callQueue t (s.callQueue t).tail := by
  unfold unshift
  dsimp only
  split <;> rfl

end Scheduler

theorem SchedulerInv.finished_not_queued {s : Scheduler} {t r u : ℕ} {d : PendingCall}
    (hi : SchedulerInv s) (hr : r ∈ s.finished t) (hd : d ∈ s.callQueue u) : d.record ≠ r := by
  intro he
  have hdone : r ∈ s.enqueued t := hi.mem_enqueued_of_finished hr
  have hwait : r ∈ s.enqueued u := by
    rw [hi.kept, ← he]
    exact mem_append_right _ (mem_map_of_mem hd)
  obtain ⟨rec, hrec, ht⟩ := hi.known hdone
  obtain ⟨rec', hrec', hu⟩ := hi.known hwait
  obtain rfl : t = u := by rw [← ht, ← hu, some.inj (hrec.symm.trans hrec')]
  have honce := hi.once t
  rw [hi.kept, nodup_append] at honce
  exact honce.2.2 r hr r (he ▸ mem_map_of_mem hd) rfl

structure QueuesInv (s : Scheduler) : Prop where
  agree : SchedulerInv s
  more : PendingMore s

namespace QueuesInv

variable {s s' : Scheduler} {t : ℕ} {c : PendingCall} {rest : List PendingCall}

theorem callInterpreter {p : Poll} (h : QueuesInv s) (hq : s.callQueue t = c :: rest)
    (hcall : s.callInterpreter t c rest p = some s') : QueuesInv s' :=
  ⟨(callInterpreter_spec h.agree hq hcall).1, h.more.callInterpreter hq hcall⟩

theorem afterCall (h : QueuesInv s) (hq : s.callQueue t = { c with started := true } :: rest)
    (f : CallFuture) : QueuesInv (s.afterCall t c f) := by
  have hi := afterCall_inv h.agree hq f
  refine ⟨hi, ?_⟩
  cases f with
  | notReady w => exact h.more
  | ready result handle =>
    intro u d hd
    have hfin : c.record ∈ (s.afterCall t c (.ready result handle)).finished t := by
      rw [Scheduler.afterCall, (unshift_frame _ t).2]
      simp [Scheduler.finish]
    have hne := hi.finished_not_queued hfin hd
    rw [Scheduler.afterCall, unshift_callQueue] at hd
    have hold : d ∈ s.callQueue u := by
      by_cases hu : u = t
      · subst hu
        rw [update_self] at hd
        exact mem_of_mem_tail hd
      · rw [update_of_ne hu] at hd
        exact hd
    obtain ⟨rec, hrec, hmore⟩ := h.more u d hold
    refine ⟨rec, ?_, hmore⟩
    rw [Scheduler.afterCall, (unshift_frame _ t).1]
    simpa [Scheduler.finish, Ne.symm hne] using hrec

theorem forced (h : QueuesInv s) (hq : s.callQueue t = { c with started := true } :: rest) :
    QueuesInv ((s.setQueue t (s.callQueue t).tail).finish t c) := by
  refine ⟨?_, h.more.mono prefix_rfl fun u d hd => ⟨d, ?_, rfl⟩⟩
  · rw [hq, tail_cons]
    exact h.agree.complete hq rfl rfl
  · by_cases hu : u = t
    · subst hu
      simp only [Scheduler.finish, Scheduler.setQueue, update_self] at hd
      exact mem_of_mem_tail hd
    · simpa [Scheduler.finish, Scheduler.setQueue, hu] using hd

theorem executeLoop {record : ℕ} {polls : List Poll} {st : SchedulerStatus} (h : QueuesInv s)
    (hloop : Scheduler.executeLoop t record polls s = some (st, s')) : QueuesInv s' := by
  induction polls generalizing s with
  | nil =>
    rw [Scheduler.executeLoop] at hloop
    split at hloop
    · cases hloop
      exact h
    · cases hloop
  | cons p polls ih =>
    rw [Scheduler.executeLoop] at hloop
    split at hloop
    · cases hloop
      exact h
    rename_i c rest hq
    dsimp only at hloop
    split at hloop
    · cases hloop
    rename_i s₁ hcall
    have h₁ := h.callInterpreter hq hcall
    have hq₁ := (callInterpreter_spec h.agree hq hcall).2.1
    split at hloop
    · cases hloop
      exact h₁
    split at hloop
    · cases hloop
      exact h₁.forced hq₁
    · exact ih (h₁.forced hq₁) hloop

theorem executeImmediately {record : ℕ} {polls : List Poll} {st : SchedulerStatus}
    (h : QueuesInv s) (hexec : s.executeImmediately record polls = some (st, s')) :
    QueuesInv s' := by
  unfold Scheduler.executeImmediately at hexec
  split at hexec
  · cases hexec
  split at hexec
  · exact h.executeLoop hexec
  · cases hexec
    exact h

theorem of_rotated (h : QueuesInv s) (hrot : s.Rotated s') : QueuesInv s' := by
  refine ⟨hrot.inv, fun u d hd => ?_⟩
  rw [hrot.callQueue] at hd
  rw [hrot.records]
  exact h.more u d hd

theorem init (f : ThreadFlags) : QueuesInv (Scheduler.init f) :=
  ⟨.init f, fun _ _ hc => by cases hc⟩

end QueuesInv

namespace SchedulerVm

variable {v v' : SchedulerVm}

/-- A completed call makes a handle if it returns an object, and none otherwise. -/
theorem afterCall_ready {t result : ℕ} {handle : ℤ} {c : PendingCall}
    (h : v.afterCall t c (.ready result handle) = some v') :
    c.record ∉ v.freedRecords ∧
      ((c.returnsReference && result ≠ 0) = true ∧
        v' = { v with
          scheduler := v.scheduler.afterCall t c (.ready result (put v.jsHandles result).2)
          jsHandles := (put v.jsHandles result).1
          freedArgs := c.record :: v.freedArgs
          held := ⟨.record c.record, (put v.jsHandles result).2, result⟩ :: v.held
          made := (c.record, ((put v.jsHandles result).2 : ℤ)) :: v.made } ∨
      (c.returnsReference && result ≠ 0) = false ∧
        v' = { v with
          scheduler := v.scheduler.afterCall t c (.ready result (-1))
          freedArgs := c.record :: v.freedArgs }) := by
  simp only [afterCall, ite_none_left_eq_some] at h
  obtain ⟨hfree, h⟩ := h
  refine ⟨hfree, ?_⟩
  split at h
  · rename_i href
    exact .inl ⟨href, (some.inj h).symm⟩
  · rename_i href
    exact .inr ⟨(Bool.not_eq_true _).mp href, (some.inj h).symm⟩

theorem afterCall_scheduler {t : ℕ} {c : PendingCall} {f : CallFuture}
    (h : v.afterCall t c f = some v') : ∃ f', v'.scheduler = v.scheduler.afterCall t c f' := by
  cases f with
  | notReady w =>
    refine ⟨.notReady w, ?_⟩
    cases h
    rfl
  | ready result handle =>
    obtain ⟨-, ⟨-, rfl⟩ | ⟨-, rfl⟩⟩ := afterCall_ready h
    · exact ⟨.ready result (put v.jsHandles result).2, rfl⟩
    · exact ⟨.ready result (-1), rfl⟩

theorem freeExecutionRecord_scheduler {r : ℕ} (h : v.freeExecutionRecord r = some v') :
    v'.scheduler = v.scheduler := by
  unfold freeExecutionRecord at h
  split at h
  · cases h
  split at h
  · cases h
  split at h
  · cases h
    rfl
  · cases h
    rfl

theorem freePending_scheduler {cs : List PendingCall} (h : v.freePending cs = some v') :
    v'.scheduler = v.scheduler := by
  induction cs generalizing v with
  | nil =>
    cases h
    rfl
  | cons c cs ih =>
    obtain ⟨v₁, hfree, hrest⟩ := bind_eq_some_iff.mp h
    have hfirst := freeExecutionRecord_scheduler hfree
    exact (ih hrest).trans hfirst

theorem StepEffect.queues {poll : ℕ → Poll} (h : QueuesInv v.scheduler)
    (he : StepEffect poll v v') : QueuesInv v'.scheduler := by
  cases he with
  | idle hrot => exact h.of_rotated hrot
  | called hrot hq hcall hafter =>
    have h₁ := h.of_rotated hrot
    have h₂ := h₁.callInterpreter hq hcall
    obtain ⟨f', hf⟩ := afterCall_scheduler hafter
    rw [hf]
    exact h₂.afterCall (callInterpreter_spec h₁.agree hq hcall).2.1 f'

end SchedulerVm

/-- Every transition keeps the queues right. -/
theorem schedulerVmStep_queues {v v' : SchedulerVm} {e : SchedulerVmEvent}
    (h : QueuesInv v.scheduler) (hstep : schedulerVmStep v e = some v') :
    QueuesInv v'.scheduler := by
  cases e with
  | run c =>
    simp only [schedulerVmStep, SchedulerVm.schedulerOnly, ite_none_left_eq_some] at hstep
    obtain ⟨-, hstep⟩ := hstep
    cases hstep
    exact ⟨h.agree.run c, h.more.run c⟩
  | wakeup t w | flags f =>
    simp only [schedulerVmStep, SchedulerVm.schedulerOnly, ite_none_left_eq_some] at hstep
    obtain ⟨-, hstep⟩ := hstep
    cases hstep
    exact h.of_rotated ⟨rfl, rfl, rfl, fun _ _ => Iff.rfl,
      h.agree.congr (List.Perm.refl _) rfl rfl rfl rfl rfl⟩
  | step clock poll =>
    simp only [schedulerVmStep, ite_none_left_eq_some, map_eq_some_iff] at hstep
    obtain ⟨-, ⟨st, v₁⟩, hstep, rfl⟩ := hstep
    exact (SchedulerVm.step_effect h.agree hstep).queues h
  | executeImmediately record polls =>
    simp only [schedulerVmStep, SchedulerVm.executeImmediately, ite_none_left_eq_some,
      map_eq_some_iff] at hstep
    obtain ⟨-, ⟨st, v₁⟩, ⟨-, ⟨st', s₁⟩, hexec, he⟩, rfl⟩ := hstep
    cases he
    exact h.executeImmediately hexec
  | makeJsHandle n object =>
    simp only [schedulerVmStep, ite_none_left_eq_some] at hstep
    obtain ⟨-, hstep⟩ := hstep
    cases hstep
    exact h
  | dropJsHandle n index object =>
    simp only [schedulerVmStep, ite_none_right_eq_some] at hstep
    obtain ⟨-, hstep⟩ := hstep
    cases hstep
    exact h
  | freeExecutionRecord r =>
    simp only [schedulerVmStep, ite_none_left_eq_some] at hstep
    rw [SchedulerVm.freeExecutionRecord_scheduler hstep.2]
    exact h
  | uninit =>
    simp only [schedulerVmStep, SchedulerVm.uninit, ite_none_left_eq_some, map_eq_some_iff] at hstep
    obtain ⟨-, v₁, hfree, rfl⟩ := hstep
    rw [show v₁.scheduler = v.scheduler from SchedulerVm.freePending_scheduler hfree]
    exact h

theorem schedulerVm_queues {f : ThreadFlags} {v : SchedulerVm}
    (h : Reachable schedulerVmStep (SchedulerVm.init f) v) : QueuesInv v.scheduler :=
  h.invariant (fun v => QueuesInv v.scheduler) (.init f) fun _ _ _ hv _ hstep =>
    schedulerVmStep_queues hv hstep

end TraceJvm
