import TraceJvm.Monitors
import Mathlib.Data.Finset.Card

/-! What the waiters of a monitor get of a sequence of notifications by its owner. -/
namespace TraceJvm

open List

namespace MonitorVm

/-- The thread waits on the object and has not been notified, interrupted or timed out. -/
def blockedOn (s : MonitorVm) (obj time u : ℕ) : Bool := s.waitsFor obj u && s.isSleeping u time

def notified (s : MonitorVm) (obj u : ℕ) : Bool :=
  match s.call u with
  | .waiting o _ _ ready => o = obj && ready
  | _ => false

def waiters (s : MonitorVm) (obj time : ℕ) : Finset ℕ :=
  (s.roundRobin.filter (s.blockedOn obj time)).toFinset

/-- The thread calls `notify` and, where `true` stands, `notifyAll`. -/
def notifyRun (s : MonitorVm) (t obj : ℕ) (calls : List Bool) : Option MonitorVm :=
  Transition.run monitorStep s (calls.map (.notify t obj))

/-- As many waiters as there are calls of `notify` become ready, as far as there are so many, and
each call makes at most one ready. -/
structure NotifyRight (s : MonitorVm) (t obj time : ℕ) (calls : List Bool) : Prop where
  delivered : ∃ s', s.notifyRun t obj calls = some s' ∧
    min (calls.count false) (s.waiters obj time).card ≤
      ((s.waiters obj time).filter fun u => s'.notified obj u = true).card
  atMostOne : ∀ before after s₁ s₂, calls = before ++ false :: after →
    s.notifyRun t obj before = some s₁ → s.notifyRun t obj (before ++ [false]) = some s₂ →
      ∃ u, ∀ v, s₂.notified obj v = true → s₁.notified obj v = true ∨ v = u

/-- The thread that `monitor_notify_one` finds. -/
def firstRecord (s : MonitorVm) (obj : ℕ) : Option ℕ := s.roundRobin.find? (s.waitsFor obj)

/-- There is a call of `notifyAll`, or nothing to deliver, or one notification for the first record
on the monitor, which is that of a waiter. -/
def NotifyMeets (s : MonitorVm) (obj time : ℕ) (calls : List Bool) : Prop :=
  true ∈ calls ∨ calls.count false = 0 ∨ (s.waiters obj time).card = 0 ∨
    (∃ u, s.firstRecord obj = some u ∧ u ∈ s.waiters obj time) ∧
      (calls.count false = 1 ∨ (s.waiters obj time).card = 1)

variable {s s' : MonitorVm} {t obj : ℕ}

/-! ### What a call does -/

def Marked (s : MonitorVm) (obj : ℕ) (calls : List Bool) (u : ℕ) : Prop :=
  true ∈ calls ∧ u ∈ s.roundRobin ∧ s.waitsFor obj u = true ∨
    false ∈ calls ∧ s.firstRecord obj = some u

structure NotifyEffect (obj : ℕ) (calls : List Bool) (s s' : MonitorVm) : Prop where
  header : s'.header = s.header
  roundRobin : s'.roundRobin = s.roundRobin
  marked : ∀ u, s.Marked obj calls u → s'.call u = (s.call u).wake
  other : ∀ u, ¬ s.Marked obj calls u → s'.call u = s.call u

variable {u : ℕ}

theorem marked_singleton {all : Bool} : s.Marked obj [all] u ↔
    (all = true ∧ u ∈ s.roundRobin ∧ s.waitsFor obj u = true ∨
      all = false ∧ s.firstRecord obj = some u) := by
  unfold Marked
  rw [mem_singleton, mem_singleton, eq_comm, eq_comm (a := false)]

theorem wake_of_running {c : MonitorCall} (h : c = .running) : c.wake = .running := by
  rw [h]
  rfl

/-- `notify` or `notifyAll` by the owner. -/
theorem notify_spec (hrun : s.call t = .running) (hown : s.currentThreadHoldCount t obj ≠ 0)
    (all : Bool) : NotifyEffect obj [all] s (s.notify t obj all) := by
  have hcall (base : MonitorVm) (hbase : base.call t = .running) (u : ℕ) :
      (base.returns t .ok).call u = base.call u := by
    have hupdate : (base.returns t .ok).call u = if u = t then .running else base.call u :=
      Function.update_apply ..
    rw [hupdate]
    split
    · rename_i hu
      rw [hu, hbase]
    · rfl
  unfold notify
  rw [if_neg hown]
  cases all with
  | true =>
    rw [if_pos rfl]
    obtain ⟨hheader, -, hlist⟩ := foldl_wake_rest (s.roundRobin.filter (s.waitsFor obj)) s
    have hbase : (s.monitorNotifyAll obj).call t = .running := by
      rw [monitorNotifyAll_call]
      split
      · exact wake_of_running hrun
      · exact hrun
    constructor
    · exact hheader
    · exact hlist
    · intro u hu
      rcases marked_singleton.mp hu with ⟨-, hmem, hwaits⟩ | ⟨hall, -⟩
      · rw [hcall _ hbase, monitorNotifyAll_call, if_pos ⟨hmem, hwaits⟩]
      · cases hall
    · intro u hu
      rw [hcall _ hbase, monitorNotifyAll_call]
      apply if_neg
      intro ⟨hmem, hwaits⟩
      exact hu (marked_singleton.mpr (Or.inl ⟨rfl, hmem, hwaits⟩))
  | false =>
    rw [if_neg Bool.false_ne_true]
    unfold monitorNotifyOne
    cases hfirst : s.roundRobin.find? (s.waitsFor obj) with
    | none =>
      constructor
      · rfl
      · rfl
      · intro u hu
        rcases marked_singleton.mp hu with ⟨hall, -⟩ | ⟨-, hsome⟩
        · cases hall
        · rw [firstRecord, hfirst] at hsome
          cases hsome
      · intro u _
        exact hcall s hrun u
    | some w =>
      have hwoken (u : ℕ) : (s.wake w).call u = if u = w then (s.call w).wake else s.call u :=
        Function.update_apply ..
      have hbase : (s.wake w).call t = .running := by
        rw [hwoken]
        split
        · rename_i hw
          rw [← hw]
          exact wake_of_running hrun
        · exact hrun
      constructor
      · rfl
      · rfl
      · intro u hu
        rcases marked_singleton.mp hu with ⟨hall, -⟩ | ⟨-, hsome⟩
        · cases hall
        · rw [firstRecord, hfirst] at hsome
          cases hsome
          dsimp only
          rw [hcall _ hbase, hwoken, if_pos rfl]
      · intro u hu
        dsimp only
        rw [hcall _ hbase, hwoken, if_neg]
        intro huw
        apply hu
        apply marked_singleton.mpr
        right
        rw [firstRecord, hfirst, huw]
        exact ⟨rfl, rfl⟩

/-! ### What a sequence of calls does -/

namespace NotifyEffect

variable {calls : List Bool}

theorem waitsFor (h : NotifyEffect obj calls s s') (o u : ℕ) :
    s'.waitsFor o u = s.waitsFor o u := by
  unfold MonitorVm.waitsFor
  by_cases hu : s.Marked obj calls u
  · rw [h.marked u hu]
    cases s.call u with
    | running => rfl
    | acquiring _ _ => rfl
    | waiting _ _ _ _ => rfl
    | reacquiring _ _ _ => rfl
  · rw [h.other u hu]

theorem firstRecord (h : NotifyEffect obj calls s s') (o : ℕ) :
    s'.firstRecord o = s.firstRecord o := by
  unfold MonitorVm.firstRecord
  have hwaits : s'.waitsFor o = s.waitsFor o := funext (h.waitsFor o)
  rw [h.roundRobin, hwaits]

theorem running (h : NotifyEffect obj calls s s') (hrun : s.call t = .running) :
    s'.call t = .running := by
  by_cases ht : s.Marked obj calls t
  · rw [h.marked t ht]
    exact wake_of_running hrun
  · rw [h.other t ht]
    exact hrun

theorem holdCount (h : NotifyEffect obj calls s s') :
    s'.currentThreadHoldCount t obj = s.currentThreadHoldCount t obj := by
  unfold currentThreadHoldCount monitor
  rw [h.header]

theorem cons {all : Bool} {s₁ : MonitorVm} (h₁ : NotifyEffect obj [all] s s₁)
    (h : NotifyEffect obj calls s₁ s') : NotifyEffect obj (all :: calls) s s' := by
  have hmarked (u : ℕ) : s.Marked obj (all :: calls) u ↔
      s.Marked obj [all] u ∨ s₁.Marked obj calls u := by
    unfold Marked
    rw [h₁.firstRecord, h₁.waitsFor, h₁.roundRobin]
    simp only [mem_cons, not_mem_nil, or_false]
    constructor
    · rintro (⟨hall | hall, hu⟩ | ⟨hall | hall, hu⟩)
      · exact Or.inl (Or.inl ⟨hall, hu⟩)
      · exact Or.inr (Or.inl ⟨hall, hu⟩)
      · exact Or.inl (Or.inr ⟨hall, hu⟩)
      · exact Or.inr (Or.inr ⟨hall, hu⟩)
    · rintro ((⟨hall, hu⟩ | ⟨hall, hu⟩) | (⟨hall, hu⟩ | ⟨hall, hu⟩))
      · exact Or.inl ⟨Or.inl hall, hu⟩
      · exact Or.inr ⟨Or.inl hall, hu⟩
      · exact Or.inl ⟨Or.inr hall, hu⟩
      · exact Or.inr ⟨Or.inr hall, hu⟩
  constructor
  · rw [h.header, h₁.header]
  · rw [h.roundRobin, h₁.roundRobin]
  · intro u hu
    by_cases hrest : s₁.Marked obj calls u
    · rw [h.marked u hrest]
      by_cases hfirst : s.Marked obj [all] u
      · rw [h₁.marked u hfirst, wake_wake]
      · rw [h₁.other u hfirst]
    · rw [h.other u hrest]
      exact h₁.marked u (((hmarked u).mp hu).resolve_right hrest)
  · intro u hu
    rw [hmarked, not_or] at hu
    rw [h.other u hu.2, h₁.other u hu.1]

end NotifyEffect

theorem notifyRun_effect (hrun : s.call t = .running) (hown : s.currentThreadHoldCount t obj ≠ 0)
    (calls : List Bool) :
    ∃ s', s.notifyRun t obj calls = some s' ∧ NotifyEffect obj calls s s' := by
  induction calls generalizing s with
  | nil =>
    use s
    constructor
    · rfl
    · constructor
      · rfl
      · rfl
      · rintro u (⟨hall, -⟩ | ⟨hall, -⟩)
        · cases hall
        · cases hall
      · exact fun _ _ => rfl
  | cons all calls ih =>
    have hfirst := notify_spec hrun hown all
    have hown' := hown
    rw [← hfirst.holdCount] at hown'
    obtain ⟨s', hs', heffect⟩ := ih (hfirst.running hrun) hown'
    use s'
    constructor
    · have hstep : monitorStep s (.notify t obj all) = some (s.notify t obj all) := if_pos hrun
      show (monitorStep s (.notify t obj all)).bind _ = _
      rw [hstep]
      exact hs'
    · exact hfirst.cons heffect

variable {calls : List Bool}

theorem notified_of_marked (h : NotifyEffect obj calls s s')
    (hu : s.Marked obj calls u) : s'.notified obj u = true := by
  have hwaits : s.waitsFor obj u = true := by
    rcases hu with ⟨-, -, hwaits⟩ | ⟨-, hfirst⟩
    · exact hwaits
    · exact find?_some hfirst
  unfold waitsFor at hwaits
  unfold notified
  rw [h.marked u hu]
  cases hcall : s.call u with
  | running | acquiring o r | reacquiring o n r =>
    rw [hcall] at hwaits
    cases hwaits
  | waiting o n us r =>
    rw [hcall] at hwaits
    exact Bool.and_eq_true_iff.mpr ⟨hwaits, rfl⟩

theorem notified_of_not_marked (h : NotifyEffect obj calls s s')
    (hu : ¬ s.Marked obj calls u) : s'.notified obj u = s.notified obj u := by
  unfold notified
  rw [h.other u hu]

variable {time : ℕ}

theorem mem_waiters : u ∈ s.waiters obj time ↔
    u ∈ s.roundRobin ∧ s.waitsFor obj u = true ∧ s.isSleeping u time = true := by
  unfold waiters blockedOn
  rw [mem_toFinset, mem_filter, Bool.and_eq_true]

theorem notified_of_isSleeping (h : s.isSleeping u time = true) : s.notified obj u = false := by
  unfold isSleeping at h
  unfold notified
  cases hcall : s.call u with
  | running => rfl
  | acquiring o r => rfl
  | waiting o n us r =>
    rw [hcall] at h
    cases r with
    | false => exact Bool.and_false _
    | true => cases h
  | reacquiring o n r => rfl

theorem notified_waiter_iff (h : NotifyEffect obj calls s s') (hu : u ∈ s.waiters obj time) :
    s'.notified obj u = true ↔ true ∈ calls ∨ false ∈ calls ∧ s.firstRecord obj = some u := by
  obtain ⟨hmem, hwaits, hasleep⟩ := mem_waiters.mp hu
  by_cases hmarked : s.Marked obj calls u
  · apply iff_of_true (notified_of_marked h hmarked)
    exact hmarked.imp_left fun hall => hall.1
  · apply iff_of_false
    · rw [notified_of_not_marked h hmarked, notified_of_isSleeping hasleep]
      exact Bool.false_ne_true
    · intro hcond
      exact hmarked (hcond.imp_left fun hall => ⟨hall, hmem, hwaits⟩)

/-- Calls of `notify` alone all go to the first record. -/
theorem card_first_iff {k : ℕ} (hk : 0 < k) : min k (s.waiters obj time).card ≤
      ((s.waiters obj time).filter fun u => s.firstRecord obj = some u).card ↔
    (s.waiters obj time).card = 0 ∨ (∃ u, s.firstRecord obj = some u ∧ u ∈ s.waiters obj time) ∧
        (k = 1 ∨ (s.waiters obj time).card = 1) := by
  by_cases hfirst : ∃ u, s.firstRecord obj = some u ∧ u ∈ s.waiters obj time
  · obtain ⟨f, hf, hmem⟩ := hfirst
    have hsingle : ((s.waiters obj time).filter fun u => s.firstRecord obj = some u) = {f} := by
      ext u
      rw [Finset.mem_filter, Finset.mem_singleton, hf, Option.some.injEq]
      constructor
      · intro h
        exact h.2.symm
      · intro h
        rw [h]
        exact ⟨hmem, rfl⟩
    have hpos : 0 < (s.waiters obj time).card := Finset.card_pos.mpr ⟨f, hmem⟩
    rw [hsingle, Finset.card_singleton]
    constructor
    · intro h
      exact Or.inr ⟨⟨f, hf, hmem⟩, by omega⟩
    · intro h
      omega
  · have hempty : ((s.waiters obj time).filter fun u => s.firstRecord obj = some u) = ∅ := by
      apply Finset.filter_eq_empty_iff.mpr
      intro u hu hsome
      exact hfirst ⟨u, hsome, hu⟩
    rw [hempty, Finset.card_empty]
    constructor
    · intro h
      left
      omega
    · intro h
      rcases h with hzero | ⟨hsome, -⟩
      · omega
      · exact absurd hsome hfirst

/-- How many of the waiters become ready. -/
theorem delivered_iff (h : NotifyEffect obj calls s s') :
    min (calls.count false) (s.waiters obj time).card ≤
      ((s.waiters obj time).filter fun u => s'.notified obj u = true).card ↔
    s.NotifyMeets obj time calls := by
  have hfilter : (s.waiters obj time).filter (fun u => s'.notified obj u = true) =
      (s.waiters obj time).filter fun u =>
        true ∈ calls ∨ false ∈ calls ∧ s.firstRecord obj = some u :=
    Finset.filter_congr fun u hu => notified_waiter_iff h hu
  rw [hfilter]
  unfold NotifyMeets
  by_cases hall : true ∈ calls
  · apply iff_of_true
    · have hkeep : (s.waiters obj time).filter (fun u =>
          true ∈ calls ∨ false ∈ calls ∧ s.firstRecord obj = some u) = s.waiters obj time :=
        Finset.filter_true_of_mem fun u _ => Or.inl hall
      rw [hkeep]
      exact Nat.min_le_right _ _
    · exact Or.inl hall
  · simp only [hall, false_or]
    by_cases hone : calls.count false = 0
    · apply iff_of_true
      · rw [hone, Nat.zero_min]
        exact Nat.zero_le _
      · exact Or.inl hone
    · have hmem : false ∈ calls := count_pos_iff.mp (Nat.pos_of_ne_zero hone)
      simp only [hmem, true_and, hone, false_or]
      exact card_first_iff (Nat.pos_of_ne_zero hone)

theorem notify_one {s₁ s₂ : MonitorVm} (h : NotifyEffect obj [false] s₁ s₂) :
    ∃ u, ∀ v, s₂.notified obj v = true → s₁.notified obj v = true ∨ v = u := by
  use (s₁.firstRecord obj).getD 0
  intro v hv
  by_cases hmarked : s₁.Marked obj [false] v
  · right
    rcases marked_singleton.mp hmarked with ⟨hall, -⟩ | ⟨-, hfirst⟩
    · cases hall
    · rw [hfirst]
      rfl
  · left
    rw [notified_of_not_marked h hmarked] at hv
    exact hv

/-- Notifications by the owner reach as many waiters as there are calls exactly if one of them is
`notifyAll`, or there is nothing to deliver, or one notification is due and the first record on the
monitor is that of a waiter. -/
theorem notify_right_iff (hrun : s.call t = .running)
    (hown : s.currentThreadHoldCount t obj ≠ 0) (time : ℕ) (calls : List Bool) :
    s.NotifyRight t obj time calls ↔ s.NotifyMeets obj time calls := by
  obtain ⟨s', hs', heffect⟩ := notifyRun_effect hrun hown calls
  rw [← delivered_iff heffect]
  constructor
  · intro h
    obtain ⟨s'', hs'', hdelivered⟩ := h.delivered
    rw [hs'] at hs''
    cases hs''
    exact hdelivered
  · intro hdelivered
    constructor
    · exact ⟨s', hs', hdelivered⟩
    · intro before after s₁ s₂ _ h₁ h₂
      obtain ⟨u, hu, hbefore⟩ := notifyRun_effect hrun hown before
      rw [h₁] at hu
      cases hu
      have hown₁ := hown
      rw [← hbefore.holdCount] at hown₁
      have hstep : s₂ = s₁.notify t obj false := by
        unfold notifyRun at h₁ h₂
        rw [map_append, Transition.run_append, h₁] at h₂
        have hlast : monitorStep s₁ (.notify t obj false) = some (s₁.notify t obj false) :=
          if_pos (hbefore.running hrun)
        have hrest : Transition.run monitorStep s₁ [.notify t obj false] =
            some (s₁.notify t obj false) := by
          show (monitorStep s₁ (.notify t obj false)).bind some = _
          rw [hlast]
          rfl
        exact Option.some.inj (h₂.symm.trans hrest)
      rw [hstep]
      exact notify_one (notify_spec (hbefore.running hrun) hown₁ false)

def twoWaiters : MonitorVm where
  header _ := .expanded ⟨0, some 0, 1⟩
  call u := if u = 0 then .running else .waiting 7 1 0 false
  interrupted _ := false
  roundRobin := [1, 2, 0]
  unmatched _ _ := 0
  returned := none

/-- One call reaches the first of them. -/
theorem one_notify_right : twoWaiters.NotifyRight 0 7 100 [false] :=
  (notify_right_iff rfl (by decide) 100 [false]).mpr (by
    right; right; right
    exact ⟨⟨1, rfl, by decide⟩, Or.inl rfl⟩)

/-- Two calls wake the same thread twice. -/
theorem two_notify_lost : ¬ twoWaiters.NotifyRight 0 7 100 [false, false] := by
  intro h
  obtain ⟨s', hs', hdelivered⟩ := h.delivered
  cases hs'
  revert hdelivered
  decide

end MonitorVm

end TraceJvm
