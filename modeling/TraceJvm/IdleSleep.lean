import TraceJvm.SchedulerDelivery

/-! `rr_scheduler_may_sleep_us`: how long the host may leave the scheduler alone. -/
namespace TraceJvm

open Transition

namespace Scheduler

/-- The loop of `rr_scheduler_may_sleep_us`; `none` where it returns 0. -/
def minWakeup (s : Scheduler) (time : UInt64) : List ℕ → UInt64 → Option UInt64
  | [], min => some min
  | t :: l, min =>
      if s.callQueue t = [] then minWakeup s time l min
      else if s.isSleeping t time then
        let wakeup := s.wakeupTime t
        minWakeup s time l (if wakeup ≠ 0 ∧ wakeup < min then wakeup else min)
      else none

/-- `rr_scheduler_may_sleep_us` -/
def maySleepUs (s : Scheduler) (time : UInt64) : UInt64 :=
  match s.minWakeup time s.roundRobin 18446744073709551615 with
  | none => 0
  | some min => if time < min then min - time else 0

/-- `ffi_rr_scheduler_wait_for_us`, whose result has 32 bits. -/
def waitForUs (s : Scheduler) (time : UInt64) : UInt32 := (s.maySleepUs time).toUInt32

/-- The times that are at least `lo` and less than `hi`. -/
def Between (lo hi : ℕ) (time : UInt64) : Prop := lo ≤ time.toNat ∧ time.toNat < hi

def AsleepBetween (s : Scheduler) (lo hi : ℕ) : Prop :=
  ∀ t ∈ s.roundRobin, s.callQueue t ≠ [] → ∀ time, Between lo hi time → s.isSleeping t time = true

structure SameCalls (s s' : Scheduler) : Prop where
  callQueue : s'.callQueue = s.callQueue
  begun : s'.begun = s.begun
  finished : s'.finished = s.finished

variable {s s' : Scheduler} {t : ℕ}

/-- All threads with calls are asleep, and the minimum is not above their deadlines. -/
theorem minWakeup_spec {time min r : UInt64} {l : List ℕ} (h : s.minWakeup time l min = some r) :
    r ≤ min ∧ ∀ t ∈ l, s.callQueue t ≠ [] →
      s.isSleeping t time = true ∧ (s.wakeupTime t = 0 ∨ r ≤ s.wakeupTime t) := by
  induction l generalizing min with
  | nil =>
    cases h
    exact ⟨UInt64.le_refl _, fun _ ht => absurd ht List.not_mem_nil⟩
  | cons u l ih =>
    unfold minWakeup at h
    split at h
    · rename_i hempty
      obtain ⟨hle, hrest⟩ := ih h
      refine ⟨hle, List.forall_mem_cons.mpr ⟨?_, hrest⟩⟩
      intro hcalls
      exact absurd hempty hcalls
    · split at h
      · rename_i hasleep
        obtain ⟨hle, hrest⟩ := ih h
        split at hle
        · rename_i hless
          refine ⟨UInt64.le_trans hle (UInt64.le_of_lt hless.2), ?_⟩
          exact List.forall_mem_cons.mpr ⟨fun _ => ⟨hasleep, Or.inr hle⟩, hrest⟩
        · rename_i hless
          refine ⟨hle, List.forall_mem_cons.mpr ⟨fun _ => ⟨hasleep, ?_⟩, hrest⟩⟩
          by_cases hzero : s.wakeupTime u = 0
          · exact Or.inl hzero
          · have hmin : min ≤ s.wakeupTime u := UInt64.not_lt.mp fun hlt => hless ⟨hzero, hlt⟩
            exact Or.inr (UInt64.le_trans hle hmin)
      · cases h

theorem minWakeup_awake {time : UInt64} {l : List ℕ} (ht : t ∈ l) (hcalls : s.callQueue t ≠ [])
    (hawake : s.isSleeping t time = false) (min : UInt64) : s.minWakeup time l min = none := by
  cases h : s.minWakeup time l min with
  | none => rfl
  | some r =>
    obtain ⟨hasleep, -⟩ := (minWakeup_spec h).2 t ht hcalls
    rw [hawake] at hasleep
    cases hasleep

theorem maySleepUs_awake {time : UInt64} (ht : t ∈ s.roundRobin) (hcalls : s.callQueue t ≠ [])
    (hawake : s.isSleeping t time = false) : s.maySleepUs time = 0 := by
  unfold maySleepUs
  rw [minWakeup_awake ht hcalls hawake]

theorem maySleepUs_asleep (s : Scheduler) (time : UInt64) :
    s.AsleepBetween time.toNat (time.toNat + (s.maySleepUs time).toNat) := by
  intro t ht hcalls time' hbetween
  obtain ⟨hlo, hhi⟩ := hbetween
  unfold maySleepUs at hhi
  cases h : s.minWakeup time s.roundRobin 18446744073709551615 with
  | none =>
    rw [h] at hhi
    have hzero : (0 : UInt64).toNat = 0 := rfl
    dsimp only at hhi
    omega
  | some min =>
    rw [h] at hhi
    dsimp only at hhi
    obtain ⟨hasleep, hdeadline⟩ := (minWakeup_spec h).2 t ht hcalls
    apply isSleeping_until hasleep
    apply hdeadline.imp_right
    intro hmin
    split at hhi
    · rename_i hless
      have hle := UInt64.le_of_lt hless
      rw [UInt64.toNat_sub_of_le _ _ hle] at hhi
      have hle' := UInt64.le_iff_toNat_le.mp hle
      apply UInt64.le_trans _ hmin
      apply UInt64.le_iff_toNat_le.mpr
      omega
    · have hzero : (0 : UInt64).toNat = 0 := rfl
      omega

theorem waitForUs_le (s : Scheduler) (time : UInt64) :
    (s.waitForUs time).toNat ≤ (s.maySleepUs time).toNat := by
  unfold waitForUs
  rw [UInt64.toNat_toUInt32]
  exact Nat.mod_le _ _

theorem AsleepBetween.mono {lo hi hi' : ℕ} (h : s.AsleepBetween lo hi) (hle : hi' ≤ hi) :
    s.AsleepBetween lo hi' := by
  intro t ht hcalls time hbetween
  exact h t ht hcalls time ⟨hbetween.1, Nat.lt_of_lt_of_le hbetween.2 hle⟩

/-- A step at such times runs no call and wakes no thread that has calls. -/
theorem stepAux_asleep {clock : ℕ → UInt64} {p : Poll} {n : ℕ} {status : SchedulerStatus}
    {lo hi : ℕ} (hs : s.AsleepBetween lo hi) (hclock : ∀ i, Between lo hi (clock i))
    (h : stepAux clock p n s = some (status, s')) :
    s.SameCalls s' ∧ s'.AsleepBetween lo hi := by
  induction n generalizing s with
  | zero => cases h
  | succ n ih =>
    unfold stepAux at h
    split at h
    · cases h
      exact ⟨⟨rfl, rfl, rfl⟩, hs⟩
    · split at h
      · cases h
        exact ⟨⟨rfl, rfl, rfl⟩, hs⟩
      · rename_i u l hnext
        obtain ⟨hperm, hmem, -⟩ := getNextThr_spec hnext
        have hrotated : { s with roundRobin := l }.AsleepBetween lo hi := by
          intro t ht
          exact hs t (hperm.mem_iff.mp ht)
        dsimp only at h
        split at h
        · cases h
          exact ⟨⟨rfl, rfl, rfl⟩, hrotated⟩
        · rename_i hawake
          have hempty : s.callQueue u = [] := by
            by_contra hcalls
            exact hawake (hs u (hperm.mem_iff.mp hmem) hcalls _ (hclock _))
          split at h
          · have hdropped : { s with
                roundRobin := l.dropLast
                wakeupInfo := Function.update s.wakeupInfo u none }.AsleepBetween lo hi := by
              intro t ht hcalls time hbetween
              have hne : t ≠ u := by
                rintro rfl
                exact hcalls hempty
              have hold := hs t (hperm.mem_iff.mp (List.dropLast_subset _ ht)) hcalls time hbetween
              have hinfo : Function.update s.wakeupInfo u none t = s.wakeupInfo t :=
                Function.update_of_ne hne _ _
              unfold isSleeping at hold ⊢
              dsimp only
              rw [hinfo]
              exact hold
            obtain ⟨hsame, hasleep⟩ := ih hdropped h
            exact ⟨{ hsame with }, hasleep⟩
          · rename_i hcalls
            rw [hempty] at hcalls
            cases hcalls

/-- The same for any number of steps. -/
theorem steps_asleep {steps : List ((ℕ → UInt64) × Poll)} {lo hi : ℕ}
    (hs : s.AsleepBetween lo hi) (hclock : ∀ e ∈ steps, ∀ i, Between lo hi (e.1 i))
    (h : Transition.run schedulerStep s (steps.map fun e => .step e.1 e.2) = some s') :
    s.SameCalls s' ∧ s'.AsleepBetween lo hi := by
  induction steps generalizing s with
  | nil =>
    cases h
    exact ⟨⟨rfl, rfl, rfl⟩, hs⟩
  | cons e steps ih =>
    obtain ⟨hfirst, hrest⟩ := List.forall_mem_cons.mp hclock
    obtain ⟨u, hu, h⟩ := Option.bind_eq_some_iff.mp h
    obtain ⟨⟨status, w⟩, hstep, rfl⟩ := Option.map_eq_some_iff.mp hu
    obtain ⟨hsame, hasleep⟩ := stepAux_asleep hs hfirst hstep
    obtain ⟨hsame', hasleep'⟩ := ih hasleep hrest h
    refine ⟨⟨?_, ?_, ?_⟩, hasleep'⟩
    · exact hsame'.callQueue.trans hsame.callQueue
    · exact hsame'.begun.trans hsame.begun
    · exact hsame'.finished.trans hsame.finished

/-- While the host waits as long as it is told, it misses no thread that could run a call. -/
theorem idle_sleep_safe (s : Scheduler) (time : UInt64) :
    (∀ t ∈ s.roundRobin, s.callQueue t ≠ [] → s.isSleeping t time = false →
      s.maySleepUs time = 0 ∧ s.waitForUs time = 0) ∧
    s.AsleepBetween time.toNat (time.toNat + (s.maySleepUs time).toNat) ∧
    s.AsleepBetween time.toNat (time.toNat + (s.waitForUs time).toNat) ∧
    ∀ (steps : List ((ℕ → UInt64) × Poll)) (s' : Scheduler),
      (∀ e ∈ steps, ∀ i,
        Between time.toNat (time.toNat + (s.maySleepUs time).toNat) (e.1 i)) →
      Transition.run schedulerStep s (steps.map fun e => .step e.1 e.2) = some s' →
        s.SameCalls s' ∧
        s'.AsleepBetween time.toNat (time.toNat + (s.maySleepUs time).toNat) := by
  have hasleep := maySleepUs_asleep s time
  have hwait := Nat.add_le_add_left (waitForUs_le s time) time.toNat
  constructor
  · intro t ht hcalls hawake
    have hzero := maySleepUs_awake ht hcalls hawake
    constructor
    · exact hzero
    · unfold waitForUs
      rw [hzero]
      rfl
  constructor
  · exact hasleep
  constructor
  · exact hasleep.mono hwait
  · intro steps s' hclock h
    exact steps_asleep hasleep hclock h

end Scheduler

end TraceJvm
