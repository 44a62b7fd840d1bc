import TraceJvm.MonitorSafety
import TraceJvm.SchedulerDelivery

/-! The threads that wait to enter a monitor, under the scheduler. The list that
`monitor_exit_handler` searches is the scheduler's own, and a call that is suspended in a monitor
operation has not returned. -/
namespace TraceJvm

open Transition Function Option

structure ScheduledMonitors where
  scheduler : Scheduler
  monitors : MonitorVm

inductive ScheduledEvent where
  /-- `rr_scheduler_run` and `rr_scheduler_step` -/
  | scheduler (e : SchedulerEvent)
  /-- What the call of a thread does with a monitor. -/
  | monitor (e : MonitorEvent)

def MonitorEvent.thread : MonitorEvent → Option ℕ
  | .acquire t _ _ => some t
  | .release t _ => some t
  | .wait t _ _ _ => some t
  | .notify t _ _ => some t
  | .step t _ => some t
  | .executeImmediately t => some t
  | .interrupt _ => none
  | .reschedule _ => none

/-- The list of the scheduler changes with the scheduler only, and
`rr_scheduler_execute_immediately` is left out. -/
def ScheduledEvent.permitted : ScheduledEvent → Bool
  | .scheduler (.executeImmediately _ _) => false
  | .monitor (.executeImmediately _) => false
  | .monitor (.reschedule _) => false
  | _ => true

def scheduledStep (v : ScheduledMonitors) (e : ScheduledEvent) : Option ScheduledMonitors :=
  if e.permitted then
    match e with
    | .scheduler e =>
        (schedulerStep v.scheduler e).bind fun s =>
          if ∀ t ∈ v.scheduler.roundRobin, v.monitors.call t ≠ .running → s.callQueue t ≠ [] then
            some ⟨s, { v.monitors with roundRobin := s.roundRobin }⟩
          else none
    | .monitor e =>
        if ∀ t ∈ e.thread, v.scheduler.callQueue t ≠ [] then
          (monitorStep v.monitors e).map fun m => ⟨v.scheduler, m⟩
        else none
  else none

def ScheduledMonitors.Initial (v : ScheduledMonitors) : Prop :=
  (∃ f, v.scheduler = .init f) ∧ v.monitors.Initial ∧ v.monitors.roundRobin = []

/-- The monitor that a suspended call waits to enter, with the flag of its wake-up information. -/
def MonitorCall.entry : MonitorCall → Option (ℕ × Bool)
  | .running => none
  | .acquiring obj ready => some (obj, ready)
  | .waiting _ _ _ _ => none
  | .reacquiring obj _ ready => some (obj, ready)

namespace MonitorVm

variable {s s' : MonitorVm} {t obj : ℕ}

theorem entersFor_iff : s.entersFor obj t = true ↔ ∃ r, (s.call t).entry = some (obj, r) := by
  unfold entersFor
  cases s.call t <;> simp [MonitorCall.entry]

def Unowned (s : MonitorVm) (obj : ℕ) : Prop := ∀ m, s.monitor obj = some m → m.tid = none

end MonitorVm

inductive EntryEffect (t : ℕ) (s s' : MonitorVm) : Prop where
  | same : (∀ o, s'.monitor o = s.monitor o) →
      (∀ u, (s'.call u).entry = (s.call u).entry) → EntryEffect t s s'
  /-- The thread becomes the owner. -/
  | takes (obj : ℕ) (m : MonitorData) : m.tid ≠ none →
      (∀ o, s'.monitor o = if o = obj then some m else s.monitor o) →
      (∀ u, (s'.call u).entry = if u = t then none else (s.call u).entry) →
      (∀ o r, (s.call t).entry = some (o, r) → o = obj) → EntryEffect t s s'
  /-- The monitor has an owner, and the thread waits. -/
  | blocks (obj : ℕ) (ready : Bool) {m : MonitorData} : s.monitor obj = some m → m.tid ≠ none →
      (∀ o, s'.monitor o = s.monitor o) →
      (∀ u, (s'.call u).entry = if u = t then some (obj, ready) else (s.call u).entry) →
      ((s.call t).entry = none ∨ (s.call t).entry = some (obj, ready)) → EntryEffect t s s'
  /-- The owner leaves, and the first thread of the list that waits to enter is marked. -/
  | frees (obj : ℕ) (m : MonitorData) : (∃ m, s.monitor obj = some m) → m.tid = none →
      (∀ o, s'.monitor o = if o = obj then some m else s.monitor o) →
      (∀ u, (s'.call u).entry = if s.roundRobin.find? (s.entersFor obj) = some u then
        some (obj, true) else (s.call u).entry) → EntryEffect t s s'

namespace MonitorVm

variable {s s' : MonitorVm} {t obj : ℕ}

theorem returns_entry (s : MonitorVm) (t u : ℕ) (r : MonitorResult) :
    ((s.returns t r).call u).entry = if u = t then none else (s.call u).entry := by
  unfold returns
  by_cases hu : u = t <;> simp [hu, MonitorCall.entry]

theorem suspend_entry (s : MonitorVm) (t u : ℕ) (c : MonitorCall) :
    ((s.suspend t c).call u).entry = if u = t then c.entry else (s.call u).entry := by
  unfold suspend
  by_cases hu : u = t <;> simp [hu]

theorem wake_entry (c : MonitorCall) : c.wake.entry = c.entry.map fun e => (e.1, true) := by
  cases c <;> rfl

theorem entry_wake (hw : s.waitsFor obj t = true) :
    (s.call t).wake.entry = (s.call t).entry := by
  rw [wake_entry]
  unfold waitsFor at hw
  split at hw
  · rename_i hc
    rw [hc]
    rfl
  · cases hw

theorem wake_waiting_entry (hw : s.waitsFor obj t = true) (u : ℕ) :
    ((s.wake t).call u).entry = (s.call u).entry := by
  rw [wake_call]
  split
  · rename_i hu
    rw [hu, entry_wake hw]
  · rfl

theorem running_wake (c : MonitorCall) : c.wake = .running ↔ c = .running := by
  cases c <;> simp [MonitorCall.wake]

theorem wake_running (s : MonitorVm) (t u : ℕ) :
    (s.wake t).call u = .running ↔ s.call u = .running := by
  rw [wake_call]
  split
  · rename_i hu
    rw [hu]
    exact running_wake _
  · rfl

theorem monitorExitHandler_entry (s : MonitorVm) (obj u : ℕ) :
    ((s.monitorExitHandler obj).call u).entry =
      if s.roundRobin.find? (s.entersFor obj) = some u then some (obj, true)
      else (s.call u).entry := by
  unfold monitorExitHandler
  split
  · rename_i hnone
    rw [hnone, if_neg (by simp)]
  · rename_i w hsome
    rw [hsome]
    obtain ⟨r, hr⟩ := entersFor_iff.mp (List.find?_some hsome)
    by_cases hu : u = w
    · subst hu
      rw [if_pos rfl, wake_call, if_pos rfl, wake_entry, hr]
      rfl
    · rw [if_neg (by simpa using Ne.symm hu), wake_call, if_neg hu]

theorem monitorExitHandler_running (s : MonitorVm) (obj u : ℕ) :
    (s.monitorExitHandler obj).call u = .running ↔ s.call u = .running := by
  unfold monitorExitHandler
  split
  · rfl
  · exact wake_running ..

theorem monitorExitHandler_roundRobin (s : MonitorVm) (obj : ℕ) :
    (s.monitorExitHandler obj).roundRobin = s.roundRobin := by
  unfold monitorExitHandler
  split <;> rfl

theorem monitorNotifyAll_entry (s : MonitorVm) (obj u : ℕ) :
    ((s.monitorNotifyAll obj).call u).entry = (s.call u).entry := by
  rw [monitorNotifyAll_call]
  split
  · rename_i hu
    exact entry_wake hu.2
  · rfl

theorem monitorNotifyAll_running (s : MonitorVm) (obj u : ℕ) :
    (s.monitorNotifyAll obj).call u = .running ↔ s.call u = .running := by
  rw [monitorNotifyAll_call]
  split
  · exact running_wake _
  · rfl

/-- What is the same for every operation of thread `t`. -/
structure Keeps (t : ℕ) (s s' : MonitorVm) : Prop where
  effect : EntryEffect t s s'
  running : ∀ u, u ≠ t → (s'.call u = .running ↔ s.call u = .running)
  roundRobin : s'.roundRobin = s.roundRobin

theorem running_of_ne {f : ℕ → MonitorCall} {c : MonitorCall} {u : ℕ} (hu : u ≠ t) :
    update f t c u = .running ↔ f u = .running := by
  rw [update_of_ne hu]

theorem keeps_returns (s₁ : MonitorVm) (hrun : s.call t = .running)
    (hm : s₁.header = s.header) (he : ∀ u, (s₁.call u).entry = (s.call u).entry)
    (hr : ∀ u, s₁.call u = .running ↔ s.call u = .running)
    (hl : s₁.roundRobin = s.roundRobin) (r : MonitorResult) : Keeps t s (s₁.returns t r) where
  effect := by
    refine .same (fun o => ?_) fun u => ?_
    · rw [monitor, monitor, show (s₁.returns t r).header = s.header from hm]
    · rw [returns_entry, he]
      split
      · rename_i hu
        rw [hu, hrun]
        rfl
      · rfl
  running u hu := (running_of_ne hu).trans (hr u)
  roundRobin := hl

theorem acquireLoop_keeps {ready : Bool} (h : s.acquireLoop t obj ready = some s')
    (hentry : (s.call t).entry = none ∨ (s.call t).entry = some (obj, ready)) : Keeps t s s' := by
  unfold acquireLoop at h
  split at h
  · cases h
  rename_i m hm
  split at h
  · rename_i m' hacq
    cases h
    refine ⟨.takes obj m' ?_ ?_ ?_ ?_, fun u hu => running_of_ne hu, rfl⟩
    · unfold MonitorData.acquire at hacq
      split at hacq
      · cases hacq
        simp
      split at hacq
      · rename_i ht
        cases hacq
        simp [ht]
      · cases hacq
    · exact fun o => monitor_setMonitor s obj o m'
    · exact fun u => returns_entry _ t u .ok
    · intro o r ho
      rcases hentry with hnone | hsome
      · rw [hnone] at ho
        cases ho
      · rw [hsome] at ho
        exact (Prod.mk.inj (some.inj ho)).1.symm
  · rename_i hacq
    cases h
    refine ⟨.blocks obj ready hm ?_ (fun _ => rfl) (fun u => suspend_entry s t u _) hentry,
      fun u hu => running_of_ne hu, rfl⟩
    intro htid
    simp [MonitorData.acquire, htid] at hacq

theorem monitorAcquire_keeps {allocated : Bool} (hrun : s.call t = .running)
    (h : s.monitorAcquire t obj allocated = some s') : Keeps t s s' := by
  have hentry : (s.call t).entry = none := by rw [hrun]; rfl
  unfold monitorAcquire at h
  split at h
  · exact acquireLoop_keeps h (.inl hentry)
  · rename_i w hw
    split at h
    · -- the new monitor has no owner, so the thread takes it
      have hm : (s.setMonitor obj (.fresh w)).monitor obj = some (.fresh w) := by
        rw [monitor_setMonitor, if_pos rfl]
      rw [acquireLoop, hm] at h
      simp only [MonitorData.acquire, MonitorData.fresh, if_true] at h
      cases h
      refine ⟨.takes obj ⟨w, some t, 1⟩ (by simp) (fun o => ?_)
        (fun u => returns_entry _ t u .ok) ?_, fun u hu => running_of_ne hu, rfl⟩
      · show MonitorVm.monitor (MonitorVm.setMonitor (MonitorVm.setMonitor s obj _) obj _) o = _
        rw [monitor_setMonitor, monitor_setMonitor]
        split <;> rfl
      · intro o r ho
        rw [hentry] at ho
        cases ho
    · cases h
      exact keeps_returns s hrun rfl (fun _ => rfl) (fun _ => Iff.rfl) rfl _

/-- The running thread `t` gives the monitor up, and then its call returns or yields as `c`. -/
theorem frees_keeps (s₁ : MonitorVm) (m' : MonitorData) {m : MonitorData}
    {c : MonitorCall} (hrun : s.call t = .running) (hm : s.monitor obj = some m) (hfree : m'.tid = none)
    (hheader : s₁.header = (s.setMonitor obj m').header) (hcall : s₁.call = s.call)
    (hlist : s₁.roundRobin = s.roundRobin) (hentry : c.entry = none)
    (h : s'.header = (s₁.monitorExitHandler obj).header)
    (hc : s'.call = update (s₁.monitorExitHandler obj).call t c)
    (hl : s'.roundRobin = (s₁.monitorExitHandler obj).roundRobin) : Keeps t s s' where
  effect := by
    have hfind : s₁.roundRobin.find? (s₁.entersFor obj) = s.roundRobin.find? (s.entersFor obj) := by
      rw [hlist, show s₁.entersFor obj = s.entersFor obj from by unfold entersFor; rw [hcall]]
    refine .frees obj m' ⟨m, hm⟩ hfree (fun o => ?_) fun u => ?_
    · rw [← monitor_setMonitor, monitor, monitor, h, (monitorExitHandler_frame s₁ obj).1, hheader]
    · by_cases hu : u = t
      · have hnot : s.roundRobin.find? (s.entersFor obj) ≠ some u := by
          intro hsome
          obtain ⟨r, hr⟩ := entersFor_iff.mp (List.find?_some hsome)
          rw [hu, hrun] at hr
          cases hr
        rw [hc, if_neg hnot, hu, update_self, hentry, hrun]
        rfl
      · rw [hc, update_of_ne hu, monitorExitHandler_entry, hfind, hcall]
  running u hu := by
    rw [hc, update_of_ne hu, monitorExitHandler_running, hcall]
  roundRobin := by rw [hl, monitorExitHandler_roundRobin, hlist]

theorem monitorRelease_keeps (hrun : s.call t = .running) :
    Keeps t s (s.monitorRelease t obj) := by
  have hfail := keeps_returns s hrun rfl (fun _ => rfl) (fun _ => Iff.rfl) rfl .failed
  unfold monitorRelease
  split
  · exact hfail
  rename_i m hm
  split
  · exact hfail
  rename_i htid
  split
  · exact hfail
  dsimp only
  split
  · exact frees_keeps ((s.setUnmatched t obj (s.unmatched t obj - 1)).setMonitor obj
      { m with tid := none, holdCount := 0 }) { m with tid := none, holdCount := 0 } hrun hm rfl
      rfl rfl rfl rfl rfl rfl rfl
  · have ht : m.tid = some t := not_not.mp htid
    refine ⟨.takes obj { m with holdCount := m.holdCount - 1 } (by simp [ht])
      (fun o => ?_) (fun u => returns_entry _ t u .ok) ?_, fun u hu => running_of_ne hu, rfl⟩
    · exact monitor_setMonitor s obj o _
    · intro o r ho
      rw [hrun] at ho
      cases ho

theorem wait0_keeps {timeoutMillis now : ℕ} (hrun : s.call t = .running) :
    Keeps t s (s.wait0 t obj timeoutMillis now) := by
  unfold wait0
  split
  · exact keeps_returns { s with interrupted := update s.interrupted t false } hrun rfl
      (fun _ => rfl) (fun _ => Iff.rfl) rfl .interrupted
  · unfold monitorReleaseAllHoldCount
    have hfail := keeps_returns s hrun rfl (fun _ => rfl) (fun _ => Iff.rfl) rfl
      .illegalMonitorState
    split
    · exact hfail
    rename_i m hm
    split
    · exact hfail
    split
    · exact hfail
    rename_i hcount
    dsimp only
    rw [if_neg hcount]
    exact frees_keeps (s.setMonitor obj { m with tid := none, holdCount := 0 })
      { m with tid := none, holdCount := 0 } hrun hm rfl rfl rfl rfl rfl rfl rfl rfl

theorem notify_keeps {all : Bool} (hrun : s.call t = .running) :
    Keeps t s (s.notify t obj all) := by
  unfold notify
  split
  · exact keeps_returns s hrun rfl (fun _ => rfl) (fun _ => Iff.rfl) rfl .illegalMonitorState
  cases all with
  | true =>
    exact keeps_returns _ hrun (monitorNotifyAll_frame s obj).1 (monitorNotifyAll_entry s obj)
      (monitorNotifyAll_running s obj) (foldl_wake_rest _ s).2.2 .ok
  | false =>
    show Keeps t s ((s.monitorNotifyOne obj).returns t .ok)
    unfold monitorNotifyOne
    split
    · exact keeps_returns s hrun rfl (fun _ => rfl) (fun _ => Iff.rfl) rfl .ok
    · rename_i w hw
      exact keeps_returns (s.wake w) hrun rfl (wake_waiting_entry (List.find?_some hw))
        (wake_running s w) rfl .ok

theorem reacquireLoop_keeps {n : ℕ} {ready : Bool}
    (hentry : (s.call t).entry = none ∨ (s.call t).entry = some (obj, ready))
    (h : s.reacquireLoop t obj n ready = some s') : Keeps t s s' := by
  unfold reacquireLoop at h
  split at h
  · cases h
  rename_i m hm
  split at h
  · cases h
    have hentries : ∀ u, (((s.setMonitor obj { m with tid := some t, holdCount := n }).finishWait
        t).call u).entry = if u = t then none else (s.call u).entry := by
      intro u
      unfold finishWait
      split <;> exact returns_entry _ t u _
    refine ⟨.takes obj { m with tid := some t, holdCount := n } (by simp) (fun o => ?_) hentries ?_,
      fun u hu => ?_, ?_⟩
    · rw [← monitor_setMonitor]
      unfold finishWait
      split <;> rfl
    · intro o r ho
      rcases hentry with hnone | hsome
      · rw [hnone] at ho
        cases ho
      · rw [hsome] at ho
        exact (Prod.mk.inj (some.inj ho)).1.symm
    · unfold finishWait
      split <;> exact running_of_ne hu
    · unfold finishWait
      split <;> rfl
  rename_i hheld
  split at h
  · cases h
  · cases h
    exact ⟨.blocks obj ready hm hheld (fun _ => rfl) (fun u => suspend_entry s t u _) hentry,
      fun u hu => running_of_ne hu, rfl⟩

theorem resume_keeps (h : s.resume t = some s') : Keeps t s s' := by
  unfold resume at h
  split at h
  · cases h
  · rename_i hc
    exact acquireLoop_keeps h (.inr (by rw [hc]; rfl))
  · rename_i hc
    exact reacquireLoop_keeps (.inl (by rw [hc]; rfl)) h
  · rename_i hc
    exact reacquireLoop_keeps (.inr (by rw [hc]; rfl)) h

/-- The operations of a thread, and the interruption of any thread. -/
theorem monitorStep_keeps {e : MonitorEvent} (hexec : ∀ u, e ≠ .executeImmediately u)
    (hlist : ∀ l, e ≠ .reschedule l) (h : monitorStep s e = some s') :
    ∃ u, Keeps u s s' ∧ (e.thread = some u ∨ ∀ w, s'.call w = .running ↔ s.call w = .running) := by
  cases e with
  | acquire u obj allocated =>
    simp only [monitorStep, ite_none_right_eq_some] at h
    exact ⟨u, monitorAcquire_keeps h.1 h.2, .inl rfl⟩
  | release u obj =>
    simp only [monitorStep, ite_none_right_eq_some, some.injEq] at h
    obtain ⟨hrun, rfl⟩ := h
    exact ⟨u, monitorRelease_keeps hrun, .inl rfl⟩
  | wait u obj timeoutMillis now =>
    simp only [monitorStep, ite_none_right_eq_some, some.injEq] at h
    obtain ⟨hrun, rfl⟩ := h
    exact ⟨u, wait0_keeps hrun, .inl rfl⟩
  | notify u obj all =>
    simp only [monitorStep, ite_none_right_eq_some, some.injEq] at h
    obtain ⟨hrun, rfl⟩ := h
    exact ⟨u, notify_keeps hrun, .inl rfl⟩
  | interrupt u =>
    cases h
    exact ⟨u, ⟨.same (fun _ => rfl) fun _ => rfl, fun _ _ => Iff.rfl, rfl⟩, .inr fun _ => Iff.rfl⟩
  | step u time =>
    simp only [monitorStep, ite_none_left_eq_some] at h
    exact ⟨u, resume_keeps h.2, .inl rfl⟩
  | executeImmediately u => exact absurd rfl (hexec u)
  | reschedule l => exact absurd rfl (hlist l)

end MonitorVm

/-- A free monitor that a thread waits to enter has a waiting thread that is marked as ready. -/
structure EntryInv (v : ScheduledMonitors) : Prop where
  scheduler : SchedulerInv v.scheduler
  list : v.monitors.roundRobin = v.scheduler.roundRobin
  /-- A suspended call has not returned. -/
  suspended : ∀ t, v.monitors.call t ≠ .running → v.scheduler.callQueue t ≠ []
  expanded : ∀ t o r, (v.monitors.call t).entry = some (o, r) → ∃ m, v.monitors.monitor o = some m
  ready : ∀ t o r m, (v.monitors.call t).entry = some (o, r) → v.monitors.monitor o = some m →
    m.tid = none → ∃ u, (v.monitors.call u).entry = some (o, true)

namespace EntryInv

variable {v v' : ScheduledMonitors}

theorem initial (h : v.Initial) : EntryInv v := by
  obtain ⟨⟨f, hf⟩, ⟨-, hcall, -⟩, hlist⟩ := h
  refine ⟨hf ▸ .init f, by rw [hlist, hf]; rfl, fun t ht => absurd (hcall t) ht, ?_, ?_⟩
  · intro t o r ht
    rw [hcall] at ht
    cases ht
  · intro t o r m ht
    rw [hcall] at ht
    cases ht

theorem listed (h : EntryInv v) {t o : ℕ} {r : Bool}
    (ht : (v.monitors.call t).entry = some (o, r)) : t ∈ v.monitors.roundRobin := by
  rw [h.list]
  apply h.scheduler.listed
  apply h.suspended
  intro hrun
  rw [hrun] at ht
  cases ht

theorem effect (h : EntryInv v) {t : ℕ} {m' : MonitorVm} (he : EntryEffect t v.monitors m')
    (hs : ∀ u, m'.call u ≠ .running → v.scheduler.callQueue u ≠ [])
    (hl : m'.roundRobin = v.monitors.roundRobin) : EntryInv ⟨v.scheduler, m'⟩ := by
  refine ⟨h.scheduler, hl.trans h.list, hs, ?_, ?_⟩
  · intro u o r hu
    cases he with
    | same hm hc =>
      rw [hc] at hu
      rw [hm]
      exact h.expanded u o r hu
    | takes obj m _ hm hc _ =>
      rw [hm]
      split
      · exact ⟨m, rfl⟩
      · rw [hc] at hu
        split at hu
        · cases hu
        · exact h.expanded u o r hu
    | blocks obj ready hmon _ hm hc _ =>
      rw [hm]
      rw [hc] at hu
      split at hu
      · cases hu
        exact ⟨_, hmon⟩
      · exact h.expanded u o r hu
    | frees obj m _ _ hm hc =>
      rw [hm]
      split
      · exact ⟨m, rfl⟩
      · rename_i ho
        rw [hc] at hu
        split at hu
        · exact absurd (Prod.mk.inj (some.inj hu)).1.symm ho
        · exact h.expanded u o r hu
  · intro u o r m₀ hu hm₀ hfree
    cases he with
    | same hm hc =>
      rw [hc] at hu
      rw [hm] at hm₀
      obtain ⟨w, hw⟩ := h.ready u o r m₀ hu hm₀ hfree
      exact ⟨w, by rw [hc, hw]⟩
    | takes obj m howned hm hc hobj =>
      have ho : o ≠ obj := by
        rintro rfl
        rw [hm, if_pos rfl] at hm₀
        exact howned (some.inj hm₀ ▸ hfree)
      rw [hm, if_neg ho] at hm₀
      rw [hc] at hu
      split at hu
      · cases hu
      obtain ⟨w, hw⟩ := h.ready u o r m₀ hu hm₀ hfree
      have hwt : w ≠ t := by
        rintro rfl
        exact ho (hobj o true hw)
      exact ⟨w, by rw [hc, if_neg hwt, hw]⟩
    | @blocks obj ready m hmon howned hm hc hold =>
      rw [hm] at hm₀
      have ho : o ≠ obj := by
        rintro rfl
        rw [hmon] at hm₀
        exact howned (some.inj hm₀ ▸ hfree)
      rw [hc] at hu
      split at hu
      · exact absurd (Prod.mk.inj (some.inj hu)).1.symm ho
      obtain ⟨w, hw⟩ := h.ready u o r m₀ hu hm₀ hfree
      have hwt : w ≠ t := by
        rintro rfl
        rcases hold with hnone | hsame
        · rw [hnone] at hw
          cases hw
        · rw [hsame] at hw
          exact ho (Prod.mk.inj (some.inj hw)).1.symm
      exact ⟨w, by rw [hc, if_neg hwt, hw]⟩
    | frees obj m _ _ hm hc =>
      by_cases ho : o = obj
      · -- some thread of the list waits to enter, so the handler finds one
        subst ho
        obtain ⟨w, hw⟩ : ∃ w, v.monitors.roundRobin.find? (v.monitors.entersFor o) = some w := by
          rw [hc] at hu
          split at hu
          · exact ⟨u, by assumption⟩
          · rw [← isSome_iff_exists, List.find?_isSome]
            exact ⟨u, h.listed hu, MonitorVm.entersFor_iff.mpr ⟨r, hu⟩⟩
        exact ⟨w, by rw [hc, if_pos hw]⟩
      · rw [hm, if_neg ho] at hm₀
        rw [hc] at hu
        split at hu
        · exact absurd (Prod.mk.inj (some.inj hu)).1.symm ho
        obtain ⟨w, hw⟩ := h.ready u o r m₀ hu hm₀ hfree
        refine ⟨w, ?_⟩
        rw [hc, if_neg, hw]
        intro hfound
        obtain ⟨r', hr'⟩ := MonitorVm.entersFor_iff.mp (List.find?_some hfound)
        rw [hw] at hr'
        exact ho (Prod.mk.inj (some.inj hr')).1

/-- Every transition of the scheduler and of a monitor keeps a ready thread for a free monitor. -/
theorem step (h : EntryInv v) {e : ScheduledEvent} (hstep : scheduledStep v e = some v') :
    EntryInv v' := by
  simp only [scheduledStep, ite_none_right_eq_some] at hstep
  obtain ⟨hperm, hstep⟩ := hstep
  cases e with
  | scheduler e =>
    simp only [bind_eq_some_iff, ite_none_right_eq_some, some.injEq] at hstep
    obtain ⟨s, hs, hkeep, rfl⟩ := hstep
    refine ⟨Scheduler.schedulerStep_inv h.scheduler hs, rfl, fun t ht => ?_, h.expanded, h.ready⟩
    exact hkeep t (h.scheduler.listed (h.suspended t ht)) ht
  | monitor e =>
    simp only [ite_none_right_eq_some, map_eq_some_iff] at hstep
    obtain ⟨hqueue, m', hm, rfl⟩ := hstep
    have hexec : ∀ u, e ≠ .executeImmediately u := by
      rintro u rfl
      cases hperm
    have hlist : ∀ l, e ≠ .reschedule l := by
      rintro l rfl
      cases hperm
    obtain ⟨t, hkeeps, ht⟩ := MonitorVm.monitorStep_keeps hexec hlist hm
    refine h.effect hkeeps.effect (fun u hu => ?_) hkeeps.roundRobin
    by_cases hut : u = t
    · rcases ht with ht | hrun
      · exact hqueue u (by rw [ht, hut]; rfl)
      · exact h.suspended u fun hc => hu ((hrun u).mpr hc)
    · exact h.suspended u fun hc => hu ((hkeeps.running u hut).mpr hc)

end EntryInv

end TraceJvm
