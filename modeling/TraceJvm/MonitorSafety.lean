import TraceJvm.Monitors

/-! Mutual exclusion of monitors. Every transition has one of a few effects on the monitors, the
positions of the threads and the history, and each effect keeps the invariant. -/
namespace TraceJvm

open Transition Function MonitorVm Option

inductive LockPosition where
  | running
  | entering (obj : ℕ)
  /-- In `wait0` on the object, with the hold count that it restores. -/
  | parked (obj count : ℕ)

def MonitorCall.position : MonitorCall → LockPosition
  | .running => .running
  | .acquiring obj _ => .entering obj
  | .waiting obj n _ _ => .parked obj n
  | .reacquiring obj n _ => .parked obj n

namespace MonitorVm

def position (s : MonitorVm) (t : ℕ) : LockPosition := (s.call t).position

/-- The thread has acquired the object without releasing it and is not in a wait on it. -/
def Owns (s : MonitorVm) (t obj : ℕ) : Prop :=
  0 < s.unmatched t obj ∧ ∀ n, s.position t ≠ .parked obj n

def Initial (s : MonitorVm) : Prop :=
  (∀ obj, s.monitor obj = none) ∧ (∀ t, s.call t = .running) ∧ ∀ t obj, s.unmatched t obj = 0

/-- No thread acquires a monitor that it already holds `2 ^ 32 - 1` times. -/
def NoOverflow (s : MonitorVm) (e : MonitorEvent) : Prop :=
  ∀ t obj allocated m, e = .acquire t obj allocated → s.monitor obj = some m →
    m.tid = some t → m.holdCount ≠ 2 ^ 32 - 1

end MonitorVm

inductive MonitorEffect (s s' : MonitorVm) : Prop where
  | idle : s'.header = s.header → s'.unmatched = s.unmatched → s'.position = s.position →
      MonitorEffect s s'
  | contend {t u obj : ℕ} {m : MonitorData} : (∀ o n, s.position t ≠ .parked o n) →
      s.monitor obj = some m → m.tid = some u → u ≠ t →
      s'.header = s.header → s'.unmatched = s.unmatched →
      s'.position = update s.position t (.entering obj) → MonitorEffect s s'
  | enter {t obj : ℕ} {m : MonitorData} : (∀ o n, s.position t ≠ .parked o n) →
      (s.monitor obj = none ∨ s.monitor obj = some m) → m.tid = none →
      s'.header = (s.setMonitor obj { m with tid := some t, holdCount := 1 }).header →
      s'.unmatched = (s.setUnmatched t obj (s.unmatched t obj + 1)).unmatched →
      s'.position = update s.position t .running → MonitorEffect s s'
  | again {t obj : ℕ} {m : MonitorData} :
      s.position t = .running ∧ m.holdCount ≠ 2 ^ 32 - 1 ∨ s.position t = .entering obj →
      s.monitor obj = some m → m.tid = some t →
      s'.header = (s.setMonitor obj { m with holdCount := (m.holdCount + 1) % 2 ^ 32 }).header →
      s'.unmatched = (s.setUnmatched t obj (s.unmatched t obj + 1)).unmatched →
      s'.position = update s.position t .running → MonitorEffect s s'
  | leave {t obj : ℕ} {m : MonitorData} : s.position t = .running →
      s.monitor obj = some m → m.tid = some t → 1 < m.holdCount →
      s'.header = (s.setMonitor obj { m with holdCount := m.holdCount - 1 }).header →
      s'.unmatched = (s.setUnmatched t obj (s.unmatched t obj - 1)).unmatched →
      s'.position = s.position → MonitorEffect s s'
  | exit {t obj : ℕ} {m : MonitorData} : s.position t = .running →
      s.monitor obj = some m → m.tid = some t → m.holdCount = 1 →
      s'.header = (s.setMonitor obj { m with tid := none, holdCount := 0 }).header →
      s'.unmatched = (s.setUnmatched t obj (s.unmatched t obj - 1)).unmatched →
      s'.position = s.position → MonitorEffect s s'
  | park {t obj : ℕ} {m : MonitorData} : s.position t = .running →
      s.monitor obj = some m → m.tid = some t → 0 < m.holdCount →
      s'.header = (s.setMonitor obj { m with tid := none, holdCount := 0 }).header →
      s'.unmatched = s.unmatched →
      s'.position = update s.position t (.parked obj m.holdCount) → MonitorEffect s s'
  | restore {t obj n : ℕ} {m : MonitorData} : s.position t = .parked obj n →
      s.monitor obj = some m → m.tid = none →
      s'.header = (s.setMonitor obj { m with tid := some t, holdCount := n }).header →
      s'.unmatched = s.unmatched →
      s'.position = update s.position t .running → MonitorEffect s s'

namespace MonitorVm

variable {s s' : MonitorVm} {t obj : ℕ}

theorem MonitorCall.wake_position (c : MonitorCall) : c.wake.position = c.position := by
  cases c <;> rfl

theorem wake_position (s : MonitorVm) (t : ℕ) : (s.wake t).position = s.position := by
  funext u
  unfold position
  rw [wake_call]
  split
  · rename_i hu
    rw [hu, MonitorCall.wake_position]
  · rfl

theorem monitorNotifyOne_frame (s : MonitorVm) (obj : ℕ) :
    (s.monitorNotifyOne obj).header = s.header ∧ (s.monitorNotifyOne obj).unmatched = s.unmatched ∧
      (s.monitorNotifyOne obj).position = s.position := by
  unfold monitorNotifyOne
  split
  · exact ⟨rfl, rfl, rfl⟩
  · exact ⟨rfl, rfl, wake_position _ _⟩

theorem monitorExitHandler_frame (s : MonitorVm) (obj : ℕ) :
    (s.monitorExitHandler obj).header = s.header ∧
      (s.monitorExitHandler obj).unmatched = s.unmatched ∧
      (s.monitorExitHandler obj).position = s.position := by
  unfold monitorExitHandler
  split
  · exact ⟨rfl, rfl, rfl⟩
  · exact ⟨rfl, rfl, wake_position _ _⟩

theorem monitorNotifyAll_frame (s : MonitorVm) (obj : ℕ) :
    (s.monitorNotifyAll obj).header = s.header ∧ (s.monitorNotifyAll obj).unmatched = s.unmatched ∧
      (s.monitorNotifyAll obj).position = s.position := by
  obtain ⟨hheader, hunmatched, -⟩ := foldl_wake_rest (s.roundRobin.filter (s.waitsFor obj)) s
  refine ⟨hheader, hunmatched, ?_⟩
  funext u
  unfold position
  rw [monitorNotifyAll_call]
  split
  · exact MonitorCall.wake_position _
  · rfl

theorem returns_position (s : MonitorVm) (t : ℕ) (r : MonitorResult) :
    (s.returns t r).position = update s.position t .running := by
  funext u
  unfold position returns
  by_cases hu : u = t <;> simp [hu, MonitorCall.position]

theorem suspend_position (s : MonitorVm) (t : ℕ) (c : MonitorCall) :
    (s.suspend t c).position = update s.position t c.position := by
  funext u
  unfold position suspend
  by_cases hu : u = t <;> simp [hu]

theorem position_eq_of_call (h : s.call t = .running) : s.position t = .running := by
  simp [position, h, MonitorCall.position]

theorem update_position_running (h : s.call t = .running) :
    update s.position t .running = s.position := by
  rw [update_eq_self_iff, position_eq_of_call h]

theorem monitor_setMonitor (s : MonitorVm) (obj o : ℕ) (m : MonitorData) :
    (s.setMonitor obj m).monitor o = if o = obj then some m else s.monitor o := by
  unfold monitor setMonitor
  by_cases ho : o = obj
  · subst ho
    simp [HeaderWord.inspectMonitor]
  · simp [ho]

theorem acquireLoop_effect {ready : Bool} (h : s.acquireLoop t obj ready = some s')
    (hpos : s.position t = .running ∧
        (∀ m, s.monitor obj = some m → m.tid = some t → m.holdCount ≠ 2 ^ 32 - 1) ∨
      s.position t = .entering obj) : MonitorEffect s s' := by
  have hpark : ∀ o n, s.position t ≠ .parked o n := by
    intro o n hp
    rcases hpos with ⟨hpos, -⟩ | hpos <;> simp [hp] at hpos
  unfold acquireLoop at h
  split at h
  · cases h
  · rename_i m hm
    unfold MonitorData.acquire at h
    by_cases hfree : m.tid = none
    · simp only [hfree, if_true, some.injEq] at h
      subst h
      exact .enter hpark (.inr hm) hfree rfl rfl (returns_position _ _ _)
    · by_cases hown : m.tid = some t
      · simp only [hown, reduceCtorEq, if_false, if_true, some.injEq] at h
        subst h
        refine .again (hpos.imp (fun hp => ⟨hp.1, hp.2 m hm hown⟩) id) hm hown ?_ ?_
          (returns_position _ _ _)
        · rw [hown]
          rfl
        · rfl
      · simp only [hfree, hown, if_false, some.injEq] at h
        subst h
        obtain ⟨u, hu⟩ := Option.ne_none_iff_exists'.mp hfree
        refine .contend hpark hm hu ?_ rfl rfl (suspend_position _ _ _)
        rintro rfl
        exact hown hu

theorem monitorAcquire_effect {allocated : Bool} (hrun : s.call t = .running)
    (hok : ∀ m, s.monitor obj = some m → m.tid = some t → m.holdCount ≠ 2 ^ 32 - 1)
    (h : s.monitorAcquire t obj allocated = some s') : MonitorEffect s s' := by
  have hpos := position_eq_of_call hrun
  unfold monitorAcquire at h
  split at h
  · exact acquireLoop_effect h (.inl ⟨hpos, hok⟩)
  · rename_i w hw
    split at h
    · -- the new monitor is free
      have hnone : s.monitor obj = none := by simp [monitor, hw, HeaderWord.inspectMonitor]
      unfold acquireLoop at h
      rw [monitor_setMonitor, if_pos rfl] at h
      simp only [MonitorData.acquire, MonitorData.fresh, if_true, some.injEq] at h
      subst h
      refine .enter (m := .fresh w) (by simp [hpos]) (.inl hnone) rfl ?_ ?_
        (returns_position _ _ _)
      · exact update_idem _ _ _
      · rfl
    · simp only [some.injEq] at h
      subst h
      exact .idle rfl rfl ((returns_position _ _ _).trans (update_position_running hrun))

theorem monitorRelease_effect (hrun : s.call t = .running) :
    MonitorEffect s (s.monitorRelease t obj) := by
  have hfail : MonitorEffect s (s.returns t .failed) :=
    .idle rfl rfl ((returns_position _ _ _).trans (update_position_running hrun))
  have hpos := position_eq_of_call hrun
  unfold monitorRelease
  split
  · exact hfail
  · rename_i m hm
    split
    · exact hfail
    · rename_i hown
      split
      · exact hfail
      · rename_i hcount
        dsimp only
        split
        · rename_i hone
          obtain ⟨h1, h2, h3⟩ := monitorExitHandler_frame
            ((s.setUnmatched t obj (s.unmatched t obj - 1)).setMonitor obj
              { m with tid := none, holdCount := 0 }) obj
          refine .exit hpos hm (not_not.mp hown) (by omega) h1 h2 ?_
          rw [returns_position, h3]
          exact update_position_running hrun
        · refine .leave hpos hm (not_not.mp hown) (by omega) rfl rfl ?_
          rw [returns_position]
          exact update_position_running hrun

theorem wait0_effect {timeoutMillis now : ℕ} (hrun : s.call t = .running) :
    MonitorEffect s (s.wait0 t obj timeoutMillis now) := by
  have hreturn : ∀ r, (s.returns t r).position = s.position := fun r =>
    (returns_position s t r).trans (update_position_running hrun)
  unfold wait0
  split
  · exact .idle rfl rfl (hreturn .interrupted)
  · unfold monitorReleaseAllHoldCount
    cases hm : s.monitor obj with
    | none => exact .idle rfl rfl (hreturn .illegalMonitorState)
    | some m =>
      by_cases hown : m.tid = some t
      · by_cases hcount : m.holdCount = 0
        · simp only [hown, ne_eq, not_true_eq_false, if_false, hcount, if_true]
          exact .idle rfl rfl (hreturn .illegalMonitorState)
        · simp only [hown, ne_eq, not_true_eq_false, if_false, hcount]
          obtain ⟨h1, h2, h3⟩ := monitorExitHandler_frame
            (s.setMonitor obj { m with tid := none, holdCount := 0 }) obj
          refine .park (position_eq_of_call hrun) hm hown (Nat.pos_of_ne_zero hcount) h1 h2 ?_
          rw [suspend_position, h3]
          rfl
      · simp only [ne_eq, hown, not_false_eq_true, if_true]
        exact .idle rfl rfl (hreturn .illegalMonitorState)

theorem notify_effect {all : Bool} (hrun : s.call t = .running) :
    MonitorEffect s (s.notify t obj all) := by
  unfold notify
  split
  · exact .idle rfl rfl ((returns_position _ _ _).trans (update_position_running hrun))
  · cases all with
    | true =>
      obtain ⟨h1, h2, h3⟩ := monitorNotifyAll_frame s obj
      refine .idle h1 h2 ?_
      rw [returns_position]
      exact (congrArg (update · t _) h3).trans (update_position_running hrun)
    | false =>
      obtain ⟨h1, h2, h3⟩ := monitorNotifyOne_frame s obj
      refine .idle h1 h2 ?_
      rw [returns_position]
      exact (congrArg (update · t _) h3).trans (update_position_running hrun)

theorem finishWait_frame (s : MonitorVm) (t : ℕ) :
    (s.finishWait t).header = s.header ∧ (s.finishWait t).unmatched = s.unmatched ∧
      (s.finishWait t).position = update s.position t .running := by
  unfold finishWait
  split
  · exact ⟨rfl, rfl, returns_position _ _ _⟩
  · exact ⟨rfl, rfl, returns_position _ _ _⟩

theorem reacquireLoop_effect {n : ℕ} {ready : Bool} (hpos : s.position t = .parked obj n)
    (h : s.reacquireLoop t obj n ready = some s') : MonitorEffect s s' := by
  unfold reacquireLoop at h
  split at h
  · cases h
  · rename_i m hm
    split at h
    · rename_i hfree
      simp only [some.injEq] at h
      subst h
      obtain ⟨h1, h2, h3⟩ := finishWait_frame
        (s.setMonitor obj { m with tid := some t, holdCount := n }) t
      exact .restore hpos hm hfree h1 h2 h3
    · split at h
      · cases h
      · simp only [some.injEq] at h
        subst h
        refine .idle rfl rfl ?_
        rw [suspend_position, update_eq_self_iff, hpos]
        rfl

theorem resume_effect (h : s.resume t = some s') : MonitorEffect s s' := by
  unfold resume at h
  split at h
  · cases h
  · rename_i hc
    exact acquireLoop_effect h (.inr (by simp [position, hc, MonitorCall.position]))
  · rename_i hc
    exact reacquireLoop_effect (by simp [position, hc, MonitorCall.position]) h
  · rename_i hc
    exact reacquireLoop_effect (by simp [position, hc, MonitorCall.position]) h

/-- Every transition that does not overflow a hold count has one of the effects. -/
theorem monitorStep_effect {e : MonitorEvent} (hok : s.NoOverflow e)
    (h : monitorStep s e = some s') : MonitorEffect s s' := by
  cases e with
  | acquire t obj allocated =>
    simp only [monitorStep] at h
    split at h
    · rename_i hrun
      exact monitorAcquire_effect hrun (fun m => hok t obj allocated m rfl) h
    · cases h
  | release t obj =>
    simp only [monitorStep, Option.ite_none_right_eq_some, some.injEq] at h
    obtain ⟨hrun, rfl⟩ := h
    exact monitorRelease_effect hrun
  | wait t obj timeoutMillis now =>
    simp only [monitorStep, Option.ite_none_right_eq_some, some.injEq] at h
    obtain ⟨hrun, rfl⟩ := h
    exact wait0_effect hrun
  | notify t obj all =>
    simp only [monitorStep, Option.ite_none_right_eq_some, some.injEq] at h
    obtain ⟨hrun, rfl⟩ := h
    exact notify_effect hrun
  | interrupt t | reschedule l =>
    simp only [monitorStep, some.injEq] at h
    subst h
    exact .idle rfl rfl rfl
  | step t time =>
    simp only [monitorStep] at h
    split at h
    · cases h
    · exact resume_effect h
  | executeImmediately t => exact resume_effect h

end MonitorVm

structure MonitorInv (s : MonitorVm) : Prop where
  owner : ∀ {obj t : ℕ} {m : MonitorData}, s.monitor obj = some m → m.tid = some t →
    m.holdCount = s.unmatched t obj ∧ 0 < m.holdCount ∧ m.holdCount < 2 ^ 32
  free : ∀ {obj : ℕ} {m : MonitorData}, s.monitor obj = some m → m.tid = none → m.holdCount = 0
  held : ∀ {obj t : ℕ}, 0 < s.unmatched t obj →
    (∃ m, s.monitor obj = some m ∧ m.tid = some t) ∨ ∃ n, s.position t = .parked obj n
  parked : ∀ {obj t n : ℕ}, s.position t = .parked obj n →
    n = s.unmatched t obj ∧ 0 < n ∧ n < 2 ^ 32 ∧ ∃ m, s.monitor obj = some m ∧ m.tid ≠ some t
  entering : ∀ {obj t : ℕ}, s.position t = .entering obj →
    ∃ m, s.monitor obj = some m ∧ m.tid ≠ some t

namespace MonitorInv

variable {s s' : MonitorVm}

theorem initial (h : s.Initial) : MonitorInv s where
  owner hm := by simp [h.1] at hm
  free hm := by simp [h.1] at hm
  held hu := by simp [h.2.2] at hu
  parked hp := by simp [MonitorVm.position, h.2.1, MonitorCall.position] at hp
  entering hp := by simp [MonitorVm.position, h.2.1, MonitorCall.position] at hp

theorem monitor_eq_of_header {obj : ℕ} {m : MonitorData}
    (h : s'.header = (s.setMonitor obj m).header) (o : ℕ) :
    s'.monitor o = if o = obj then some m else s.monitor o := by
  rw [← monitor_setMonitor, MonitorVm.monitor, h]
  rfl

theorem unmatched_eq {t obj n : ℕ}
    (h : s'.unmatched = (s.setUnmatched t obj n).unmatched) (u o : ℕ) :
    s'.unmatched u o = if u = t ∧ o = obj then n else s.unmatched u o := by
  rw [h]
  unfold MonitorVm.setUnmatched
  by_cases hu : u = t
  · subst hu
    by_cases ho : o = obj <;> simp [ho]
  · simp [hu]

structure PairInv (m : Option MonitorData) (u : ℕ) (p : LockPosition) (t obj : ℕ) :
    Prop where
  owner : ∀ d, m = some d → d.tid = some t →
    d.holdCount = u ∧ 0 < d.holdCount ∧ d.holdCount < 2 ^ 32
  free : ∀ d, m = some d → d.tid = none → d.holdCount = 0
  held : 0 < u → (∃ d, m = some d ∧ d.tid = some t) ∨ ∃ n, p = .parked obj n
  parked : ∀ n, p = .parked obj n →
    n = u ∧ 0 < n ∧ n < 2 ^ 32 ∧ ∃ d, m = some d ∧ d.tid ≠ some t
  entering : p = .entering obj → ∃ d, m = some d ∧ d.tid ≠ some t

theorem pairInv (h : MonitorInv s) (t obj : ℕ) :
    PairInv (s.monitor obj) (s.unmatched t obj) (s.position t) t obj where
  owner _ := h.owner
  free _ := h.free
  held := h.held
  parked _ := h.parked
  entering := h.entering

theorem of_pairInv
    (h : ∀ t obj, PairInv (s.monitor obj) (s.unmatched t obj) (s.position t) t obj) :
    MonitorInv s where
  owner hm := (h _ _).owner _ hm
  free hm := (h 0 _).free _ hm
  held := (h _ _).held
  parked := (h _ _).parked _
  entering := (h _ _).entering

variable {m : Option MonitorData} {p : LockPosition} {u : ℕ}

theorem PairInv.bystander {d' : MonitorData} {t obj : ℕ}
    (h : PairInv m u p t obj) (hm : ∀ d, m = some d → d.tid ≠ some t)
    (hd' : d'.tid ≠ some t) (hfree : d'.tid = none → d'.holdCount = 0) :
    PairInv (some d') u p t obj where
  owner d hd ht := by
    cases hd
    exact absurd ht hd'
  free d hd ht := by
    cases hd
    exact hfree ht
  held hu := by
    obtain ⟨d, hd, ht⟩ | hp := h.held hu
    · exact absurd ht (hm d hd)
    · exact .inr hp
  parked n hp := by
    obtain ⟨hn, hpos, hlt, -⟩ := h.parked n hp
    exact ⟨hn, hpos, hlt, d', rfl, hd'⟩
  entering hp := ⟨d', rfl, hd'⟩

theorem PairInv.moved {t obj : ℕ} {p' : LockPosition}
    (h : PairInv m u p t obj) (hp : ∀ n, p ≠ .parked obj n) (hp' : ∀ n, p' ≠ .parked obj n)
    (he : p' ≠ .entering obj) : PairInv m u p' t obj where
  owner := h.owner
  free := h.free
  held hu := .inl ((h.held hu).resolve_right fun ⟨n, hn⟩ => hp n hn)
  parked n hn := absurd hn (hp' n)
  entering hn := absurd hn he

theorem PairInv.ofOwner {d : MonitorData} {t obj : ℕ} (ht : d.tid = some t)
    (hcount : d.holdCount = u) (hpos : 0 < u) (hlt : u < 2 ^ 32) :
    PairInv (some d) u .running t obj where
  owner d' hd' _ := by
    cases hd'
    omega
  free d' hd' hnone := by
    cases hd'
    cases ht.symm.trans hnone
  held _ := .inl ⟨d, rfl, ht⟩
  parked := nofun
  entering := nofun

/-- One thread updates one monitor, which no other thread owns before or after. -/
theorem update {t obj : ℕ} {d : MonitorData} (h : MonitorInv s)
    (hm : ∀ o, s'.monitor o = if o = obj then some d else s.monitor o)
    (hu : ∀ v o, s'.unmatched v o = if v = t ∧ o = obj then u else s.unmatched v o)
    (hp : s'.position = update s.position t p) (hself : PairInv (some d) u p t obj)
    (hbefore : ∀ d₀, s.monitor obj = some d₀ → ∀ v, d₀.tid = some v → v = t)
    (hafter : ∀ v, d.tid = some v → v = t) (haway : ∀ o, o ≠ obj → s.position t = p ∨
      (∀ n, s.position t ≠ .parked o n) ∧ (∀ n, p ≠ .parked o n) ∧ p ≠ .entering o) :
    MonitorInv s' := by
  apply of_pairInv
  intro v o
  have hv := h.pairInv v o
  rw [hm, hu, hp, update_apply]
  by_cases ho : o = obj
  · subst ho
    by_cases ht : v = t
    · subst ht
      simpa using hself
    · rw [if_pos rfl, if_neg fun hand => ht hand.1, if_neg ht]
      exact hv.bystander (fun d₀ hd₀ htid => ht (hbefore d₀ hd₀ v htid))
        (fun htid => ht (hafter v htid)) (hself.free d rfl)
  · rw [if_neg ho, if_neg fun hand => ho hand.2]
    split
    · subst v
      rcases haway o ho with heq | ⟨hold, hnew, hent⟩
      · rwa [← heq]
      · exact hv.moved hold hnew hent
    · exact hv

theorem owner_unique {obj t : ℕ} {m : MonitorData} (hm : s.monitor obj = some m)
    (ht : m.tid = some t) : ∀ d, s.monitor obj = some d → ∀ v, d.tid = some v → v = t := by
  intro d hd v hv
  cases hm.symm.trans hd
  exact some.inj (hv.symm.trans ht)

theorem stays {t : ℕ} (hp : s.position t = p)
    (h : s'.position = s.position) : s'.position = Function.update s.position t p := by
  rw [h, ← hp, update_eq_self]

theorem unmatched_same {t obj : ℕ} (h : s'.unmatched = s.unmatched) (v o : ℕ) :
    s'.unmatched v o = if v = t ∧ o = obj then s.unmatched t obj else s.unmatched v o := by
  rw [h]
  split
  · rename_i hand
    rw [hand.1, hand.2]
  · rfl

theorem effect (h : MonitorInv s) (he : MonitorEffect s s') : MonitorInv s' := by
  cases he with
  | idle hh hu hp =>
    have hm : ∀ o, s'.monitor o = s.monitor o := fun o => by simp only [MonitorVm.monitor, hh]
    apply of_pairInv
    intro v o
    rw [hm, hu, hp]
    exact h.pairInv v o
  | @contend t u obj m hpos hmon htid hne hh hu hp =>
    have hm : ∀ o, s'.monitor o = s.monitor o := fun o => by simp only [MonitorVm.monitor, hh]
    apply of_pairInv
    intro v o
    have hv := h.pairInv v o
    rw [hm, hu, hp, update_apply]
    split
    · subst v
      have hother : m.tid ≠ some t := fun ht => hne (some.inj (htid.symm.trans ht))
      refine ⟨hv.owner, hv.free, ?_, nofun, ?_⟩
      · exact fun hpos' => .inl ((hv.held hpos').resolve_right fun ⟨n, hn⟩ => hpos o n hn)
      · intro ho
        cases ho
        exact ⟨m, hmon, hother⟩
    · exact hv
  | @enter t obj m hpos hmon htid hh hu hp =>
    have hnone : ∀ d₀, s.monitor obj = some d₀ → d₀.tid = none := by
      intro d₀ hd₀
      rcases hmon with hmon | hmon
      · cases hmon.symm.trans hd₀
      · cases hmon.symm.trans hd₀
        exact htid
    have hzero : s.unmatched t obj = 0 := by
      by_contra hne
      obtain ⟨d₀, hd₀, ht⟩ | ⟨n, hn⟩ := h.held (Nat.pos_of_ne_zero hne)
      · cases (hnone d₀ hd₀).symm.trans ht
      · exact hpos obj n hn
    apply h.update (monitor_eq_of_header hh) (unmatched_eq hu) hp
    · rw [hzero]
      exact .ofOwner rfl rfl (by decide) (by decide)
    · intro d₀ hd₀ v ht
      cases (hnone d₀ hd₀).symm.trans ht
    · exact fun v ht => (some.inj ht).symm
    · exact fun o ho => .inr ⟨hpos o, nofun, nofun⟩
  | @again t obj m hpos hmon htid hh hu hp =>
    obtain ⟨hcount, hpositive, hlt⟩ := h.owner hmon htid
    obtain ⟨hrun, hmax⟩ | hent := hpos
    · have hnext : (m.holdCount + 1) % 2 ^ 32 = s.unmatched t obj + 1 := by omega
      apply h.update (monitor_eq_of_header hh) (unmatched_eq hu) hp
      · exact .ofOwner htid hnext (by omega) (by omega)
      · exact owner_unique hmon htid
      · exact fun v ht => (some.inj (htid.symm.trans ht)).symm
      · exact fun o _ => .inl hrun
    · obtain ⟨m', hm', hne⟩ := h.entering hent
      cases hmon.symm.trans hm'
      exact absurd htid hne
  | @leave t obj m hpos hmon htid hone hh hu hp =>
    obtain ⟨hcount, hpositive, hlt⟩ := h.owner hmon htid
    apply h.update (monitor_eq_of_header hh) (unmatched_eq hu) (stays hpos hp)
    · exact .ofOwner htid (by rw [hcount]) (by omega) (by omega)
    · exact owner_unique hmon htid
    · exact fun v ht => (some.inj (htid.symm.trans ht)).symm
    · exact fun o _ => .inl hpos
  | @exit t obj m hpos hmon htid hone hh hu hp =>
    obtain ⟨hcount, hpositive, hlt⟩ := h.owner hmon htid
    have hzero : s.unmatched t obj - 1 = 0 := by omega
    apply h.update (monitor_eq_of_header hh) (unmatched_eq hu) (stays hpos hp)
    · rw [hzero]
      exact ⟨nofun, fun d hd _ => by obtain rfl := some.inj hd; rfl, nofun, nofun, nofun⟩
    · exact owner_unique hmon htid
    · exact nofun
    · exact fun o _ => .inl hpos
  | @park t obj m hpos hmon htid hcount hh hu hp =>
    obtain ⟨heq, hpositive, hlt⟩ := h.owner hmon htid
    apply h.update (monitor_eq_of_header hh) (unmatched_same hu) hp
    · refine ⟨nofun, ?_, fun _ => .inr ⟨_, rfl⟩, ?_, nofun⟩
      · intro d hd _
        cases hd
        rfl
      · intro n hn
        cases hn
        exact ⟨heq, hpositive, hlt, _, rfl, nofun⟩
    · exact owner_unique hmon htid
    · exact nofun
    · intro o ho
      refine .inr ⟨by rw [hpos]; nofun, fun n hn => ho ?_, nofun⟩
      exact (LockPosition.parked.inj hn).1.symm
  | @restore t obj n m hpos hmon htid hh hu hp =>
    obtain ⟨hn, hpositive, hlt, -⟩ := h.parked hpos
    apply h.update (monitor_eq_of_header hh) (unmatched_same hu) hp
    · exact .ofOwner rfl hn (by omega) (by omega)
    · intro d₀ hd₀ v ht
      cases hmon.symm.trans hd₀
      cases htid.symm.trans ht
    · exact fun v ht => (some.inj ht).symm
    · intro o ho
      refine .inr ⟨fun n' hn' => ho ?_, nofun, nofun⟩
      exact (LockPosition.parked.inj (hpos.symm.trans hn')).1.symm

theorem of_runs {s₀ : MonitorVm} (h₀ : s₀.Initial)
    (h : Runs monitorStep MonitorVm.NoOverflow s₀ s) : MonitorInv s :=
  h.invariant MonitorInv (initial h₀) fun _ _ _ hv hok hstep =>
    hv.effect (monitorStep_effect hok hstep)

theorem owns_iff (h : MonitorInv s) {t obj : ℕ} :
    s.Owns t obj ↔ ∃ m, s.monitor obj = some m ∧ m.tid = some t := by
  constructor
  · rintro ⟨hpos, hnot⟩
    rcases h.held hpos with hm | ⟨n, hn⟩
    · exact hm
    · exact absurd hn (hnot n)
  · rintro ⟨m, hm, ht⟩
    have ho := h.owner hm ht
    refine ⟨by omega, fun n hn => ?_⟩
    obtain ⟨-, -, -, m', hm', hne⟩ := h.parked hn
    cases hm.symm.trans hm'
    exact hne ht

end MonitorInv

/-- At most one thread owns a monitor, the owner field names it, and the hold count is the number
of its unmatched acquisitions. -/
structure MutualExclusion (s : MonitorVm) : Prop where
  exclusive : ∀ {obj t u : ℕ}, s.Owns t obj → s.Owns u obj → t = u
  owner : ∀ {obj t : ℕ}, s.Owns t obj ↔ ∃ m, s.monitor obj = some m ∧ m.tid = some t
  held : ∀ {obj : ℕ} {m : MonitorData}, s.monitor obj = some m →
    ((∃ t, m.tid = some t) ↔ 0 < m.holdCount)
  count : ∀ {obj t : ℕ} {m : MonitorData}, s.monitor obj = some m → m.tid = some t →
    m.holdCount = s.unmatched t obj

/-- Calls by a running thread that does not own the monitor fail and leave all monitors alone. -/
structure NonOwnersFail (s : MonitorVm) : Prop where
  release : ∀ {t obj : ℕ}, s.call t = .running → ¬ s.Owns t obj →
    ∃ s', monitorStep s (.release t obj) = some s' ∧ s'.header = s.header ∧
      s'.returned = some (t, .failed)
  wait : ∀ {t obj : ℕ} (timeoutMillis now : ℕ), s.call t = .running → ¬ s.Owns t obj →
    ∃ s', monitorStep s (.wait t obj timeoutMillis now) = some s' ∧ s'.header = s.header ∧
      s'.returned =
        some (t, if s.interrupted t then .interrupted else .illegalMonitorState)
  notify : ∀ {t obj : ℕ} (all : Bool), s.call t = .running → ¬ s.Owns t obj →
    ∃ s', monitorStep s (.notify t obj all) = some s' ∧ s'.header = s.header ∧
      s'.returned = some (t, .illegalMonitorState)

/-- A wait by the owner frees the monitor, and when the wait returns the thread owns the monitor
with the hold count of before. -/
structure WaitRestores (s : MonitorVm) : Prop where
  releases : ∀ {t obj timeoutMillis now : ℕ} {s' : MonitorVm},
    monitorStep s (.wait t obj timeoutMillis now) = some s' → s.Owns t obj →
    s.interrupted t = false →
    (∃ m, s'.monitor obj = some m ∧ m.tid = none ∧ m.holdCount = 0) ∧
      ∃ n, s'.position t = .parked obj n
  restores : ∀ {t obj timeoutMillis now n : ℕ} {e : MonitorEvent} {m : MonitorData}
    {s₁ s₂ s₃ : MonitorVm}, s.monitor obj = some m →
    monitorStep s (.wait t obj timeoutMillis now) = some s₁ →
    Runs monitorStep
      (fun u a => u.NoOverflow a ∧ ∃ n, u.position t = .parked obj n) s₁ s₂ →
    s₂.position t = .parked obj n → s₂.NoOverflow e → monitorStep s₂ e = some s₃ →
    s₃.position t = .running →
    ∃ m', s₃.monitor obj = some m' ∧ m'.tid = some t ∧ m'.holdCount = m.holdCount

namespace MonitorInv

variable {s s' : MonitorVm} {t obj : ℕ}

theorem mutualExclusion (h : MonitorInv s) : MutualExclusion s where
  exclusive ht hu := by
    obtain ⟨m, hm, ht⟩ := h.owns_iff.mp ht
    obtain ⟨m', hm', hu⟩ := h.owns_iff.mp hu
    cases hm.symm.trans hm'
    exact some.inj (ht.symm.trans hu)
  owner := h.owns_iff
  held {obj m} hm := by
    constructor
    · rintro ⟨t, ht⟩
      exact (h.owner hm ht).2.1
    · intro hpos
      apply Option.ne_none_iff_exists'.mp
      intro hnone
      have := h.free hm hnone
      omega
  count hm ht := (h.owner hm ht).1

theorem not_own_cases (h : MonitorInv s) (hno : ¬ s.Owns t obj) :
    s.monitor obj = none ∨ ∃ m, s.monitor obj = some m ∧ m.tid ≠ some t := by
  cases hm : s.monitor obj with
  | none => exact .inl rfl
  | some m => exact .inr ⟨m, rfl, fun ht => hno (h.owns_iff.mpr ⟨m, hm, ht⟩)⟩

theorem nonOwnersFail (h : MonitorInv s) : NonOwnersFail s where
  release {t obj} hrun hno := by
    refine ⟨_, by simp only [monitorStep, if_pos hrun]; rfl, ?_⟩
    rcases not_own_cases h hno with hm | ⟨m, hm, hne⟩
    · simp [MonitorVm.monitorRelease, hm, MonitorVm.returns]
    · simp [MonitorVm.monitorRelease, hm, hne, MonitorVm.returns]
  wait {t obj} timeoutMillis now hrun hno := by
    refine ⟨_, by simp only [monitorStep, if_pos hrun]; rfl, ?_⟩
    cases hi : s.interrupted t with
    | true => simp [MonitorVm.wait0, hi, MonitorVm.returns]
    | false =>
      rcases not_own_cases h hno with hm | ⟨m, hm, hne⟩
      · simp [MonitorVm.wait0, MonitorVm.monitorReleaseAllHoldCount, hi, hm, MonitorVm.returns]
      · simp [MonitorVm.wait0, MonitorVm.monitorReleaseAllHoldCount, hi, hm, hne,
          MonitorVm.returns]
  notify {t obj} all hrun hno := by
    refine ⟨_, by simp only [monitorStep, if_pos hrun]; rfl, ?_⟩
    rcases not_own_cases h hno with hm | ⟨m, hm, hne⟩
    · simp [MonitorVm.notify, MonitorVm.currentThreadHoldCount, hm, MonitorVm.returns]
    · simp [MonitorVm.notify, MonitorVm.currentThreadHoldCount, hm, hne, MonitorVm.returns]

/-- The effect of a wait that suspends. -/
theorem wait0_parks (h : MonitorInv s) {timeoutMillis now : ℕ}
    (hstep : monitorStep s (.wait t obj timeoutMillis now) = some s') {m : MonitorData}
    (hm : s.monitor obj = some m) (ht : m.tid = some t) (hi : s.interrupted t = false) :
    s'.header = (s.setMonitor obj { m with tid := none, holdCount := 0 }).header ∧
      s'.position t = .parked obj m.holdCount := by
  simp only [monitorStep, Option.ite_none_right_eq_some, some.injEq] at hstep
  obtain ⟨hrun, rfl⟩ := hstep
  have hcount : m.holdCount ≠ 0 := by
    have := (h.owner hm ht).2.1
    omega
  simp only [MonitorVm.wait0, hi, Bool.false_eq_true, if_false,
    MonitorVm.monitorReleaseAllHoldCount, hm, ht, ne_eq, not_true_eq_false, hcount]
  obtain ⟨h1, -, -⟩ := monitorExitHandler_frame
    (s.setMonitor obj { m with tid := none, holdCount := 0 }) obj
  refine ⟨h1, ?_⟩
  rw [suspend_position, update_self]
  rfl

theorem unmatched_of_parked (he : MonitorEffect s s') {n : ℕ}
    (hp : s.position t = .parked obj n) : s'.unmatched t obj = s.unmatched t obj := by
  cases he with
  | idle _ hu => rw [hu]
  | contend _ _ _ _ _ hu => rw [hu]
  | @enter u o m hpos _ _ _ hu =>
    rw [unmatched_eq hu, if_neg]
    rintro ⟨rfl, rfl⟩
    exact hpos _ _ hp
  | @again u o m hpos _ _ _ hu | @leave u o m hpos _ _ _ _ hu | @exit u o m hpos _ _ _ _ hu =>
    rw [unmatched_eq hu, if_neg]
    rintro ⟨rfl, rfl⟩
    simp [hp] at hpos
  | park _ _ _ _ _ hu => rw [hu]
  | restore _ _ _ _ hu => rw [hu]

/-- A parked thread runs again only as the owner, with the count of its wait. -/
theorem restored_of_parked (he : MonitorEffect s s') {n : ℕ}
    (hp : s.position t = .parked obj n) (hrun : s'.position t = .running) :
    ∃ m, s'.monitor obj = some m ∧ m.tid = some t := by
  have hmoved : ∀ u, (∀ o n, s.position u ≠ .parked o n) → ∀ p,
      s'.position = Function.update s.position u p → False := by
    intro u hu p hpos
    have hut : t ≠ u := by
      rintro rfl
      exact hu _ _ hp
    rw [hpos, update_of_ne hut, hp] at hrun
    cases hrun
  cases he with
  | idle _ _ hpos | leave _ _ _ _ _ _ hpos | exit _ _ _ _ _ _ hpos =>
    rw [hpos, hp] at hrun
    cases hrun
  | contend hu _ _ _ _ _ hpos | enter hu _ _ _ _ hpos => exact (hmoved _ hu _ hpos).elim
  | again hu _ _ _ _ hpos | park hu _ _ _ _ _ hpos =>
    refine (hmoved _ (fun o n hc => ?_) _ hpos).elim
    simp [hc] at hu
  | @restore u o n' m hu _ _ hh _ hpos =>
    by_cases hut : t = u
    · subst hut
      rw [hp] at hu
      cases hu
      exact ⟨_, by rw [monitor_eq_of_header hh, if_pos rfl], rfl⟩
    · rw [hpos, update_of_ne hut, hp] at hrun
      cases hrun

/-- A running thread is parked only with the hold count that it had. -/
theorem count_of_parking (he : MonitorEffect s s') (hrun : s.position t = .running) {n : ℕ}
    (hp : s'.position t = .parked obj n) : ∃ m, s.monitor obj = some m ∧ n = m.holdCount := by
  have hmoved : ∀ u p, (∀ o n, p ≠ .parked o n) →
      s'.position = Function.update s.position u p → False := by
    intro u p hpark hpos
    rw [hpos, update_apply] at hp
    split at hp
    · exact hpark _ _ hp
    · simp [hrun] at hp
  have hsame : s'.position = s.position → False := by
    intro hpos
    simp [hpos, hrun] at hp
  cases he with
  | idle _ _ hpos | leave _ _ _ _ _ _ hpos | exit _ _ _ _ _ _ hpos => exact (hsame hpos).elim
  | contend _ _ _ _ _ _ hpos | enter _ _ _ _ _ hpos | again _ _ _ _ _ hpos
  | restore _ _ _ _ _ hpos => exact (hmoved _ _ (by simp) hpos).elim
  | @park u o m _ hm _ _ _ _ hpos =>
    rw [hpos, update_apply] at hp
    split at hp
    · cases hp
      exact ⟨m, hm, rfl⟩
    · simp [hrun] at hp

theorem waitRestores (h : MonitorInv s) : WaitRestores s where
  releases hstep hown hi := by
    obtain ⟨m, hm, ht⟩ := h.owns_iff.mp hown
    obtain ⟨hh, hp⟩ := wait0_parks h hstep hm ht hi
    exact ⟨⟨_, by rw [monitor_eq_of_header hh, if_pos rfl], rfl, rfl⟩, _, hp⟩
  restores {t obj timeoutMillis now n e m s₁ s₂ s₃} hm hstep hruns hp hok hlast hrun := by
    have hno : s.NoOverflow (.wait t obj timeoutMillis now) := fun _ _ _ _ he => by cases he
    have he₁ := monitorStep_effect hno hstep
    have h₁ : MonitorInv s₁ := h.effect he₁
    have hparked : ∃ n, s₁.position t = .parked obj n := by
      have hstart := hruns.invariant (fun v => v = s₁ ∨ ∃ n, s₁.position t = .parked obj n)
        (.inl rfl) fun v a w hv hva _ => .inr (hv.elim (fun heq => heq ▸ hva.2) id)
      exact hstart.elim (fun heq => ⟨n, heq ▸ hp⟩) id
    have hkeep := hruns.invariant (fun v => MonitorInv v ∧ v.unmatched t obj = s₁.unmatched t obj)
      ⟨h₁, rfl⟩ fun v a w hv hva hvw => by
        obtain ⟨n, hn⟩ := hva.2
        have he := monitorStep_effect hva.1 hvw
        exact ⟨hv.1.effect he, (unmatched_of_parked he hn).trans hv.2⟩
    obtain ⟨h₂, hu₂⟩ := hkeep
    have he := monitorStep_effect hok hlast
    have hu₃ := unmatched_of_parked he hp
    obtain ⟨m', hm', ht'⟩ := restored_of_parked he hp hrun
    refine ⟨m', hm', ht', ?_⟩
    have hc' := ((h₂.effect he).owner hm' ht').1
    have hu₁ : s₁.unmatched t obj = m.holdCount := by
      obtain ⟨n₁, hn₁⟩ := hparked
      simp only [monitorStep, Option.ite_none_right_eq_some] at hstep
      obtain ⟨m₁, hm₁, rfl⟩ := count_of_parking he₁ (position_eq_of_call hstep.1) hn₁
      cases hm.symm.trans hm₁
      exact (h₁.parked hn₁).1.symm
    omega

end MonitorInv

/-- In every run of any number of threads that does not overflow a hold count, monitors exclude
each other, waits restore them and calls by non-owners fail. -/
theorem monitors_mutuallyExclusive {s₀ s : MonitorVm} (h₀ : s₀.Initial)
    (h : Runs monitorStep MonitorVm.NoOverflow s₀ s) :
    MutualExclusion s ∧ NonOwnersFail s ∧ WaitRestores s := by
  have hinv := MonitorInv.of_runs h₀ h
  exact ⟨hinv.mutualExclusion, hinv.nonOwnersFail, hinv.waitRestores⟩

def unlockedVm : MonitorVm where
  header _ := .mark 1
  call _ := .running
  interrupted _ := false
  roundRobin := [0, 1]
  unmatched _ _ := 0
  returned := none

theorem unlockedVm_initial : unlockedVm.Initial := ⟨fun _ => rfl, fun _ => rfl, fun _ _ => rfl⟩

/-- After one acquisition the thread owns the object. -/
theorem monitors_mutuallyExclusive_first :
    ∃ s, monitorStep unlockedVm (.acquire 0 0 true) = some s ∧
      MutualExclusion s ∧ NonOwnersFail s ∧ WaitRestores s := by
  refine ⟨_, rfl, ?_⟩
  apply monitors_mutuallyExclusive unlockedVm_initial
  refine Runs.refl.tail (a := .acquire 0 0 true) ?_ rfl
  intro t obj allocated m _ hm
  cases hm

theorem acquire_again {s : MonitorVm} {w n : ℕ} (hrun : s.call 0 = .running)
    (hm : s.header 0 = .expanded ⟨w, some 0, n⟩) :
    ∃ s', monitorStep s (.acquire 0 0 true) = some s' ∧ s'.call 0 = .running ∧
      s'.header 0 = .expanded ⟨w, some 0, (n + 1) % 2 ^ 32⟩ := by
  refine ⟨((s.setMonitor 0 ⟨w, some 0, (n + 1) % 2 ^ 32⟩).setUnmatched 0 0
    (s.unmatched 0 0 + 1)).returns 0 .ok, ?_, ?_, ?_⟩
  · simp [monitorStep, hrun, MonitorVm.monitorAcquire, hm, MonitorVm.acquireLoop,
      MonitorVm.monitor, HeaderWord.inspectMonitor, MonitorData.acquire]
  · simp [MonitorVm.returns]
  · simp [MonitorVm.returns, MonitorVm.setUnmatched, MonitorVm.setMonitor]

theorem acquire_many (n : ℕ) :
    ∃ s, Reachable monitorStep unlockedVm s ∧ s.call 0 = .running ∧
      s.header 0 = .expanded ⟨1, some 0, (n + 1) % 2 ^ 32⟩ := by
  induction n with
  | zero => exact ⟨_, Runs.refl.tail trivial (a := .acquire 0 0 true) rfl, rfl, rfl⟩
  | succ n ih =>
    obtain ⟨s, hs, hrun, hm⟩ := ih
    obtain ⟨s', hstep, hrun', hm'⟩ := acquire_again hrun hm
    refine ⟨s', hs.tail trivial hstep, hrun', ?_⟩
    rw [hm', Nat.mod_add_mod]

/-- After `2 ^ 32` acquisitions by one thread its hold count is zero. -/
theorem monitor_holdCount_overflows :
    ∃ s, Reachable monitorStep unlockedVm s ∧ ¬ MutualExclusion s := by
  obtain ⟨s, hs, -, hm⟩ := acquire_many (2 ^ 32 - 1)
  refine ⟨s, hs, fun h => ?_⟩
  have hmon : s.monitor 0 = some ⟨1, some 0, 0⟩ := by
    rw [MonitorVm.monitor, hm]
    rfl
  exact absurd ((h.held hmon).mp ⟨0, rfl⟩) (by decide)

end TraceJvm
