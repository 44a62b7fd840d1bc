import TraceJvm.TimedBlocking

/-! `Unsafe.park` and `Unsafe.unpark`: the permit that no park takes away. -/
namespace TraceJvm

open Transition Function

/-- Threads that park. The last three fields are history, which no transition reads: the permit as
it should be, the number of calls of `unpark`, and that of the parks that have returned though they
were neither interrupted nor timed out. -/
structure ParkVm where
  scheduler : Scheduler
  permit : ℕ → Bool
  unparks : ℕ → ℕ
  released : ℕ → ℕ

inductive ParkEvent where
  | park (t : ℕ) (now : UInt64) (isAbsolute : Bool) (time : ℤ)
  | unpark (t : ℕ)
  | interrupt (t : ℕ)
  /-- The interrupt status of the thread is reset. -/
  | clearInterrupt (t : ℕ)
  /-- The scheduler runs a parked thread that is awake, and its park returns. -/
  | wake (t : ℕ) (time : UInt64)

namespace ParkVm

def setWakeup (s : ParkVm) (t : ℕ) (w : Option WakeupInfo) : ParkVm :=
  { s with scheduler :=
      { s.scheduler with wakeupInfo := update s.scheduler.wakeupInfo t w } }

def setFlags (s : ParkVm) (f : ThreadFlags) : ParkVm :=
  { s with scheduler := { s.scheduler with flags := f } }

def setUnparkPermit (s : ParkVm) (t : ℕ) : ParkVm :=
  s.setFlags { s.scheduler.flags with
    unparkPermit := update s.scheduler.flags.unparkPermit t true }

def setInterrupted (s : ParkVm) (t : ℕ) (b : Bool) : ParkVm :=
  s.setFlags { s.scheduler.flags with
    interrupted := update s.scheduler.flags.interrupted t b }

def undisturbed (s : ParkVm) (t : ℕ) (w : WakeupInfo) (time : UInt64) : Bool :=
  !s.scheduler.flags.interrupted t && (w.wakeupUs = 0 || time ≤ w.wakeupUs)

def consume (s : ParkVm) (t : ℕ) (byPermit : Bool) : ParkVm :=
  { s with
    permit := update s.permit t false
    released := update s.released t (s.released t + if byPermit then 1 else 0) }

end ParkVm

def parkStep (s : ParkVm) : ParkEvent → Option ParkVm
  | .park t now isAbsolute time =>
      match s.scheduler.wakeupInfo t with
      | some _ => none
      | none =>
          match unsafePark now isAbsolute time with
          | .yields w => some (s.setWakeup t (some w))
          | _ => some (s.consume t false)
  | .unpark t =>
      some { s.setUnparkPermit t with
        permit := update s.permit t true
        unparks := update s.unparks t (s.unparks t + 1) }
  | .interrupt t => some (s.setInterrupted t true)
  | .clearInterrupt t => some (s.setInterrupted t false)
  | .wake t time =>
      match s.scheduler.wakeupInfo t with
      | none => none
      | some w =>
          if s.scheduler.isSleeping t time then none
          else some ((s.setWakeup t none).consume t (s.undisturbed t w time))

namespace ParkVm

structure Initial (s : ParkVm) : Prop where
  unparkPermit : ∀ t, s.scheduler.flags.unparkPermit t = false
  wakeupInfo : ∀ t, s.scheduler.wakeupInfo t = none
  permit : ∀ t, s.permit t = false
  released : ∀ t, s.released t = 0

/-- A parked thread is asleep exactly as long as there is no permit for it, it is not interrupted
and its deadline has not passed; and no more parks have been released than there were calls of
`unpark`. -/
structure ParkRight (s : ParkVm) : Prop where
  asleep : ∀ t w, s.scheduler.wakeupInfo t = some w → ∀ time,
    (s.scheduler.isSleeping t time = true ↔
      s.permit t = false ∧ s.undisturbed t w time = true)
  once : ∀ t, s.released t ≤ s.unparks t

/-- No thread parks after a park of it has returned since the flag of its permit was set, unless
it has been unparked again. -/
def Unspent (s : ParkVm) : ParkEvent → Prop
  | .park t _ _ _ => s.scheduler.flags.unparkPermit t = true → s.permit t = true
  | _ => True

variable {s s' : ParkVm}

structure ParkInv (s : ParkVm) : Prop where
  /-- A thread parks with the permit that it should have. -/
  agrees : ∀ t w, s.scheduler.wakeupInfo t = some w →
    w.kind = .threadPark ∧ s.scheduler.flags.unparkPermit t = s.permit t
  /-- A permit that should be there is there. -/
  flag : ∀ t, s.permit t = true → s.scheduler.flags.unparkPermit t = true
  /-- Each park takes the permit of one call. -/
  count : ∀ t, s.released t + (if s.permit t then 1 else 0) ≤ s.unparks t

theorem isSleeping_park {t : ℕ} {w : WakeupInfo} (hw : s.scheduler.wakeupInfo t = some w)
    (hk : w.kind = .threadPark) (time : UInt64) :
    s.scheduler.isSleeping t time = true ↔
      s.scheduler.flags.unparkPermit t = false ∧ s.undisturbed t w time = true := by
  unfold Scheduler.isSleeping undisturbed
  rw [hw]
  dsimp only
  rw [hk]
  by_cases hpermit : s.scheduler.flags.unparkPermit t = true
  · simp [hpermit]
  · simp [hpermit]

theorem ParkInv.initial (h : s.Initial) : s.ParkInv where
  agrees t w hw := by
    rw [h.wakeupInfo t] at hw
    cases hw
  flag t ht := by
    rw [h.permit t] at ht
    cases ht
  count t := by
    rw [h.permit t, h.released t]
    exact Nat.zero_le _

theorem ParkInv.right (h : s.ParkInv) : s.ParkRight where
  asleep t w hw time := by
    obtain ⟨hk, hagrees⟩ := h.agrees t w hw
    rw [isSleeping_park hw hk, hagrees]
  once t := Nat.le_trans (Nat.le_add_right _ _) (h.count t)

theorem unsafePark_kind {now : UInt64} {isAbsolute : Bool} {time : ℤ} {w : WakeupInfo}
    (h : unsafePark now isAbsolute time = .yields w) : w.kind = .threadPark := by
  unfold unsafePark at h
  split at h
  · split at h
    · cases h
    · dsimp only at h
      split at h
      · cases h
      · cases h
        rfl
  · split at h
    · cases h
    · cases h
      rfl

theorem ParkInv.yield (h : s.ParkInv) {t : ℕ} {w : WakeupInfo} (hk : w.kind = .threadPark)
    (hunspent : s.scheduler.flags.unparkPermit t = true → s.permit t = true) :
    (s.setWakeup t (some w)).ParkInv where
  agrees u v hv := by
    have hv' : update s.scheduler.wakeupInfo t (some w) u = some v := hv
    by_cases hu : u = t
    · rw [hu, update_self] at hv'
      cases hv'
      rw [hu]
      exact ⟨hk, Bool.eq_iff_iff.mpr ⟨hunspent, h.flag t⟩⟩
    · rw [update_of_ne hu] at hv'
      exact h.agrees u v hv'
  flag := h.flag
  count := h.count

/-- The park of a thread returns. -/
theorem ParkInv.consume (h : s.ParkInv) (t : ℕ) (byPermit : Bool)
    (hby : byPermit = true → s.permit t = true) :
    ((s.setWakeup t none).consume t byPermit).ParkInv where
  agrees u v hv := by
    have hv' : update s.scheduler.wakeupInfo t none u = some v := hv
    by_cases hu : u = t
    · rw [hu, update_self] at hv'
      cases hv'
    · rw [update_of_ne hu] at hv'
      have hpermit : update s.permit t false u = s.permit u := update_of_ne hu _ _
      show _ ∧ _ = update s.permit t false u
      rw [hpermit]
      exact h.agrees u v hv'
  flag u hu := by
    have hu' : update s.permit t false u = true := hu
    by_cases hut : u = t
    · rw [hut, update_self] at hu'
      cases hu'
    · rw [update_of_ne hut] at hu'
      exact h.flag u hu'
  count u := by
    show update s.released t _ u + (if update s.permit t false u then 1 else 0) ≤ s.unparks u
    have hcount := h.count u
    by_cases hut : u = t
    · rw [hut, update_self, update_self]
      rw [hut] at hcount
      cases byPermit with
      | true =>
        rw [hby rfl] at hcount
        exact hcount
      | false => exact Nat.le_trans (Nat.le_add_right _ _) hcount
    · rw [update_of_ne hut, update_of_ne hut]
      exact hcount

theorem ParkInv.unpark (h : s.ParkInv) (t : ℕ) :
    ParkInv { s.setUnparkPermit t with
      permit := update s.permit t true
      unparks := update s.unparks t (s.unparks t + 1) } where
  agrees u v hv := by
    have hold := h.agrees u v hv
    show _ ∧ update s.scheduler.flags.unparkPermit t true u = update s.permit t true u
    by_cases hut : u = t
    · rw [hut, update_self, update_self]
      exact ⟨hold.1, rfl⟩
    · rw [update_of_ne hut, update_of_ne hut]
      exact hold
  flag u hu := by
    have hu' : update s.permit t true u = true := hu
    show update s.scheduler.flags.unparkPermit t true u = true
    by_cases hut : u = t
    · rw [hut, update_self]
    · rw [update_of_ne hut] at hu' ⊢
      exact h.flag u hu'
  count u := by
    show s.released u + (if update s.permit t true u then 1 else 0) ≤ update s.unparks t _ u
    have hcount := h.count u
    by_cases hut : u = t
    · rw [hut, update_self, update_self]
      rw [hut] at hcount
      exact Nat.add_le_add_right (Nat.le_trans (Nat.le_add_right _ _) hcount) 1
    · rw [update_of_ne hut, update_of_ne hut]
      exact hcount

theorem ParkInv.step (h : s.ParkInv) {e : ParkEvent} (hunspent : s.Unspent e)
    (hstep : parkStep s e = some s') : s'.ParkInv := by
  cases e with
  | park t now isAbsolute time =>
    unfold parkStep at hstep
    dsimp only at hstep
    split at hstep
    · cases hstep
    · rename_i hnone
      -- nothing changes in the wake-up information of a park that returns at once
      have hsame : s.setWakeup t none = s := by
        have hupdate : update s.scheduler.wakeupInfo t none = s.scheduler.wakeupInfo :=
          update_eq_self_iff.mpr hnone.symm
        unfold setWakeup
        rw [hupdate]
      have hreturned := h.consume t false fun hf => by cases hf
      rw [hsame] at hreturned
      split at hstep
      · rename_i w hpark
        cases hstep
        exact h.yield (unsafePark_kind hpark) hunspent
      · cases hstep
        exact hreturned
  | unpark t =>
    cases hstep
    exact h.unpark t
  | interrupt t | clearInterrupt t =>
    cases hstep
    exact { h with }
  | wake t time =>
    unfold parkStep at hstep
    dsimp only at hstep
    split at hstep
    · cases hstep
    · rename_i w hw
      split at hstep
      · cases hstep
      · rename_i hawake
        cases hstep
        apply h.consume t
        intro hundisturbed
        obtain ⟨hk, hagrees⟩ := h.agrees t w hw
        rw [isSleeping_park hw hk] at hawake
        rw [← hagrees]
        by_contra hflag
        exact hawake ⟨eq_false_of_ne_true hflag, hundisturbed⟩

/-- In a run in which no spent permit is used, a park blocks as long as it should, and each call of
`unpark` releases at most one. -/
theorem park_permit_right {s₀ : ParkVm} (h₀ : s₀.Initial) (h : Runs parkStep Unspent s₀ s) :
    s.ParkRight :=
  (h.invariant ParkInv (.initial h₀) fun _ _ _ hinv hok hstep => hinv.step hok hstep).right

def idle : ParkVm where
  scheduler := .init ⟨fun _ => false, fun _ => false, fun _ => false, fun _ => 0, false⟩
  permit _ := false
  unparks _ := 0
  released _ := 0

/-- A permit lets one park return. -/
theorem one_park_released : ∃ s, Runs parkStep Unspent idle s ∧ s.released 1 = 1 ∧ s.ParkRight := by
  have hfirst : Runs parkStep Unspent idle _ := Runs.refl.tail (a := .unpark 1) trivial rfl
  have hsecond := hfirst.tail (show Unspent _ (.park 1 5 false 0) from fun _ => rfl) rfl
  have hthird := hsecond.tail (show Unspent _ (.wake 1 6) from trivial) rfl
  exact ⟨_, hthird, rfl, park_permit_right ⟨fun _ => rfl, fun _ => rfl, fun _ => rfl, fun _ => rfl⟩
    hthird⟩

/-- The next park does not block either. -/
theorem second_park_spins : ∃ s, Reachable parkStep idle s ∧ ¬ s.ParkRight := by
  have hfirst : Reachable parkStep idle _ := Runs.refl.tail (a := .unpark 1) trivial rfl
  have hsecond := hfirst.tail (a := .park 1 5 false 0) trivial rfl
  have hthird := hsecond.tail (a := .wake 1 6) trivial rfl
  have hfourth := hthird.tail (a := .park 1 7 false 0) trivial rfl
  refine ⟨_, hfourth, fun h => ?_⟩
  have hasleep := (h.asleep 1 ⟨.threadPark, 0, 0, false⟩ rfl 8).mpr ⟨rfl, rfl⟩
  exact absurd hasleep (by decide)

end ParkVm

end TraceJvm
