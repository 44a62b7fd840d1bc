import TraceJvm.Scheduler

/-! The natives that block for a time, and the deadlines that they leave to the scheduler. -/
namespace TraceJvm

/-- What a native does: it returns, throws, or yields with its wake-up information. -/
inductive BlockResult where
  | returned
  | interrupted
  | illegalMonitorState
  | yields (w : WakeupInfo)

/-- `Object.wait0` with the hold count that it has released. -/
def objectWait0 (interrupted : Bool) (holdCount monitor : ℕ) (now : UInt64) (timeoutMillis : ℤ) :
    BlockResult :=
  if interrupted then .interrupted
  else if holdCount = 0 then .illegalMonitorState
  else
    let wakeupUs := if timeoutMillis = 0 then 0 else now + UInt64.ofNat (timeoutMillis.toNat * 1000)
    .yields ⟨.monitorWait, wakeupUs, monitor, false⟩

/-- `Thread.sleepNanos0` -/
def sleepNanos0 (interrupted : Bool) (now : UInt64) (nanos : ℤ) : BlockResult :=
  if interrupted then .interrupted
  else
    let sleepUs := UInt64.ofNat nanos.toNat / 1000
    -- `__builtin_add_overflow`
    let wakeupUs := if now.toNat + sleepUs.toNat < 18446744073709551616 then now + sleepUs else 0
    .yields ⟨.sleep, wakeupUs, 0, false⟩

def unsafePark (now : UInt64) (isAbsolute : Bool) (time : ℤ) : BlockResult :=
  if isAbsolute then
    if time < 0 then .returned
    else
      let deadlineUs := UInt64.ofNat time.toNat * 1000
      if deadlineUs < now then .returned else .yields ⟨.threadPark, deadlineUs, 0, false⟩
  else if time < 0 then .returned
  else
    let deadlineUs := if time = 0 then 0 else now + UInt64.ofNat (time.toNat / 1000)
    .yields ⟨.threadPark, deadlineUs, 0, false⟩

inductive TimedCall where
  | wait0 (interrupted : Bool) (holdCount monitor : ℕ) (timeoutMillis : ℤ)
  | sleepNanos0 (interrupted : Bool) (nanos : ℤ)
  | park (isAbsolute : Bool) (time : ℤ)

namespace TimedCall

def run (now : UInt64) : TimedCall → BlockResult
  | .wait0 i n m t => objectWait0 i n m now t
  | .sleepNanos0 i t => TraceJvm.sleepNanos0 i now t
  | .park a t => unsafePark now a t

/-- The argument has 64 bits, and is what the callers in Java let through. -/
def Accepted : TimedCall → Prop
  | .wait0 _ _ _ t => 0 ≤ t ∧ t < 9223372036854775808
  | .sleepNanos0 _ t => 0 ≤ t ∧ t < 9223372036854775808
  | .park _ t => -9223372036854775808 ≤ t ∧ t < 9223372036854775808

/-- The requested time has passed at the time `time`. Without a timeout it never has. -/
def Passed (now : UInt64) (time : UInt64) : TimedCall → Prop
  | .wait0 _ _ _ t => t ≠ 0 ∧ (now.toNat : ℤ) + t * 1000 ≤ time.toNat
  | .sleepNanos0 _ t => (now.toNat : ℤ) * 1000 + t ≤ time.toNat * 1000
  | .park true t => t * 1000 ≤ time.toNat
  | .park false t => t ≠ 0 ∧ (now.toNat : ℤ) * 1000 + t ≤ time.toNat * 1000

/-- A thread that has not been notified, interrupted or unparked is awake only once the requested
time has passed, and waits without a deadline only where no time passes it. -/
def RightResult (passed : UInt64 → Prop) (now : UInt64) : BlockResult → Prop
  | .returned => passed now
  | .interrupted => True
  | .illegalMonitorState => True
  | .yields w =>
      (∀ (s : Scheduler) (t : ℕ) (ready : Bool) (time : UInt64),
        s.wakeupInfo t = some { w with ready := ready } → s.isSleeping t time = false →
          passed time ∨ ready = true ∨ s.flags.interrupted t = true ∨
            s.flags.unparkPermit t = true) ∧
      (w.wakeupUs = 0 → ∀ time, ¬ passed time)

def Right (now : UInt64) (c : TimedCall) : Prop :=
  RightResult (fun time => c.Passed now time) now (c.run now)

/-- A deadline of 64 bits that is not zero, or one that wraps to a number that no time passes. -/
def Fits (deadline : ℕ) : Prop :=
  deadline ≠ 0 ∧ deadline < 18446744073709551616 ∨
    18446744073709551616 ≤ deadline ∧ (deadline % 18446744073709551616 = 0 ∨
      deadline % 18446744073709551616 = 18446744073709551615)

def Meets (now : UInt64) : TimedCall → Prop
  | .wait0 i n _ t => i = true ∨ n = 0 ∨ t = 0 ∨ Fits (now.toNat + t.toNat * 1000)
  | .sleepNanos0 i t => i = true ∨ now.toNat + t.toNat / 1000 ≠ 0
  | .park true t => t < 0 ∨
      (if t.toNat * 1000 < 18446744073709551616 then now ≠ 0 ∨ t.toNat ≠ 0
        else now = 0 ∧ t.toNat * 1000 % 18446744073709551616 = 0)
  | .park false t => t ≤ 0 ∨ Fits (now.toNat + t.toNat / 1000)

def Timed (k : WakeupKind) : Prop := k = .sleep ∨ k = .threadPark ∨ k = .monitorWait

variable {w : WakeupInfo}

theorem isSleeping_of_timed {s : Scheduler} {t : ℕ}
    (hw : s.wakeupInfo t = some w) (hk : Timed w.kind) (hready : w.ready = false)
    (hinterrupted : s.flags.interrupted t = false) (hpermit : s.flags.unparkPermit t = false)
    (time : UInt64) : s.isSleeping t time = true ↔ (w.wakeupUs = 0 ∨ time ≤ w.wakeupUs) := by
  unfold Scheduler.isSleeping
  rw [hw]
  dsimp only
  rw [hready, hinterrupted, hpermit]
  rcases hk with hk | hk | hk
  · simp [hk]
  · simp [hk]
  · simp [hk]

/-- No scheduler needs to be looked at, only the deadline. -/
theorem awake_iff (hk : Timed w.kind) (hready : w.ready = false) (P : UInt64 → Prop) :
    (∀ (s : Scheduler) (t : ℕ) (ready : Bool) (time : UInt64),
      s.wakeupInfo t = some { w with ready := ready } → s.isSleeping t time = false →
        P time ∨ ready = true ∨ s.flags.interrupted t = true ∨ s.flags.unparkPermit t = true) ↔
    ∀ time, w.wakeupUs ≠ 0 → w.wakeupUs < time → P time := by
  constructor
  · intro h time hne hlt
    let quiet : ThreadFlags := ⟨fun _ => false, fun _ => false, fun _ => false, fun _ => 0, false⟩
    let s : Scheduler := { Scheduler.init quiet with wakeupInfo := fun _ => some w }
    have hw : s.wakeupInfo 0 = some w := rfl
    have hawake : s.isSleeping 0 time = false := by
      apply eq_false_of_ne_true
      intro hasleep
      rcases (isSleeping_of_timed hw hk hready rfl rfl time).mp hasleep with hzero | hle
      · exact hne hzero
      · exact UInt64.not_le.mpr hlt hle
    have hsame : { w with ready := false } = w := by rw [← hready]
    rcases h s 0 false time (hw.trans (congrArg some hsame.symm)) hawake with
      hP | hfalse | hfalse | hfalse
    · exact hP
    iterate 3 cases hfalse
  · intro h s t ready time hw hawake
    by_contra hnot
    simp only [not_or, Bool.not_eq_true] at hnot
    obtain ⟨hP, hready', hinterrupted, hpermit⟩ := hnot
    have hdeadline : w.wakeupUs = 0 ∨ time ≤ w.wakeupUs := by
      by_contra hcond
      obtain ⟨hne, hlt⟩ := not_or.mp hcond
      exact hP (h time hne (UInt64.not_le.mp hlt))
    have hasleep := (isSleeping_of_timed hw hk hready' hinterrupted hpermit time).mpr hdeadline
    rw [hawake] at hasleep
    cases hasleep

/-! ### The deadlines -/

/-- A stored deadline `u` serves a request that no time before `deadline` and every time after it
passes. -/
def Serves (P : UInt64 → Prop) (u : UInt64) : Prop :=
  (∀ time, u ≠ 0 → u < time → P time) ∧ (u = 0 → ∀ time, ¬ P time)

variable {P : UInt64 → Prop} {u : UInt64}

theorem serves_iff_fits (deadline : ℕ) (hafter : ∀ time : UInt64, deadline < time.toNat → P time)
    (hbefore : ∀ time : UInt64, P time → deadline ≤ time.toNat)
    (hu : u.toNat = deadline % 18446744073709551616) : Serves P u ↔ Fits deadline := by
  have hzero : u = 0 ↔ u.toNat = 0 := UInt64.toNat_inj.symm
  have hlt := u.toNat_lt
  constructor
  · intro ⟨hearly, hnever⟩
    rcases Nat.lt_or_ge deadline 18446744073709551616 with hsmall | hbig
    · left
      constructor
      · intro hd
        have hone : P 1 := hafter 1 (by rw [hd]; decide)
        exact hnever (hzero.mpr (by omega)) 1 hone
      · exact hsmall
    · right
      constructor
      · exact hbig
      · by_contra hnot
        -- a clock that shows the next microsecond
        have hnext : (UInt64.ofNat (u.toNat + 1)).toNat = u.toNat + 1 := by
          rw [UInt64.toNat_ofNat']
          omega
        have hne : u ≠ 0 := by
          intro h
          have hu0 := hzero.mp h
          omega
        have hP := hearly (UInt64.ofNat (u.toNat + 1)) hne (UInt64.lt_iff_toNat_lt.mpr (by omega))
        have hle := hbefore _ hP
        have hclock := (UInt64.ofNat (u.toNat + 1)).toNat_lt
        omega
  · intro hfits
    constructor
    · intro time hne hless
      have htime := time.toNat_lt
      have hless' := UInt64.lt_iff_toNat_lt.mp hless
      have hne' : u.toNat ≠ 0 := fun h => hne (hzero.mpr h)
      rcases hfits with ⟨-, hsmall⟩ | ⟨-, hwrapped⟩
      · apply hafter
        omega
      · omega
    · intro hu0 time hP
      have htime := time.toNat_lt
      have hle := hbefore time hP
      have hu0' := hzero.mp hu0
      unfold Fits at hfits
      omega

/-- A deadline that overflows is replaced by none. -/
theorem serves_saturated_iff (deadline : ℕ)
    (hafter : ∀ time : UInt64, deadline < time.toNat → P time)
    (hbefore : ∀ time : UInt64, P time → deadline ≤ time.toNat)
    (hu : u.toNat = if deadline < 18446744073709551616 then deadline else 0) :
    Serves P u ↔ deadline ≠ 0 := by
  have hzero : u = 0 ↔ u.toNat = 0 := UInt64.toNat_inj.symm
  constructor
  · intro ⟨_, hnever⟩ hd
    have hone : P 1 := hafter 1 (by rw [hd]; decide)
    rw [hd] at hu
    exact hnever (hzero.mpr hu) 1 hone
  · intro hd
    constructor
    · intro time hne hless
      have hless' := UInt64.lt_iff_toNat_lt.mp hless
      split at hu
      · apply hafter
        omega
      · exact absurd (hzero.mpr hu) hne
    · intro hu0 time hP
      have htime := time.toNat_lt
      have hle := hbefore time hP
      have hu0' := hzero.mp hu0
      split at hu
      · omega
      · omega

theorem yields_right_iff (now : UInt64) (hk : Timed w.kind)
    (hready : w.ready = false) : RightResult P now (.yields w) ↔ Serves P w.wakeupUs :=
  and_congr_left' (awake_iff hk hready P)

/-! ### The three natives -/

variable {now : UInt64} {t : ℤ}

theorem wait0_right_iff {interrupted : Bool} {holdCount monitor : ℕ}
    (ht : 0 ≤ t ∧ t < 9223372036854775808) : Right now (.wait0 interrupted holdCount monitor t) ↔
      Meets now (.wait0 interrupted holdCount monitor t) := by
  have hnow := now.toNat_lt
  unfold Right run objectWait0 Meets
  dsimp only
  by_cases hi : interrupted = true
  · rw [if_pos hi]
    exact iff_of_true trivial (Or.inl hi)
  by_cases hn : holdCount = 0
  · rw [if_neg hi, if_pos hn]
    exact iff_of_true trivial (Or.inr (Or.inl hn))
  rw [if_neg hi, if_neg hn, yields_right_iff now (Or.inr (Or.inr rfl)) rfl]
  simp only [hi, hn, Bool.false_eq_true, false_or]
  by_cases hzero : t = 0
  · rw [if_pos hzero]
    apply iff_of_true
    · constructor
      · intro time hne
        exact absurd rfl hne
      · intro _ time hpassed
        exact hpassed.1 hzero
    · exact Or.inl hzero
  · rw [if_neg hzero]
    simp only [hzero, false_or]
    apply serves_iff_fits (now.toNat + t.toNat * 1000)
    · intro time hafter
      constructor
      · exact hzero
      · omega
    · intro time hpassed
      have hle := hpassed.2
      omega
    · rw [UInt64.toNat_add, UInt64.toNat_ofNat']
      omega

theorem sleepNanos0_right_iff {interrupted : Bool} (ht : 0 ≤ t ∧ t < 9223372036854775808) :
    Right now (.sleepNanos0 interrupted t) ↔ Meets now (.sleepNanos0 interrupted t) := by
  have hnow := now.toNat_lt
  unfold Right run TraceJvm.sleepNanos0 Meets
  dsimp only
  by_cases hi : interrupted = true
  · rw [if_pos hi]
    exact iff_of_true trivial (Or.inl hi)
  rw [if_neg hi, yields_right_iff now (Or.inl rfl) rfl]
  simp only [hi, Bool.false_eq_true, false_or]
  have hsleep : (UInt64.ofNat t.toNat / 1000).toNat = t.toNat / 1000 := by
    have hnanos : (UInt64.ofNat t.toNat).toNat = t.toNat := by
      rw [UInt64.toNat_ofNat']
      omega
    rw [UInt64.toNat_div, hnanos]
    rfl
  apply serves_saturated_iff (now.toNat + t.toNat / 1000)
  · intro time hafter
    show (now.toNat : ℤ) * 1000 + t ≤ time.toNat * 1000
    omega
  · intro time hpassed
    have hle : (now.toNat : ℤ) * 1000 + t ≤ time.toNat * 1000 := hpassed
    omega
  · rw [hsleep]
    split
    · rw [UInt64.toNat_add, hsleep]
      omega
    · rfl

theorem fits_millis_iff {now millis : ℕ}
    (h : now ≤ millis * 1000 % 18446744073709551616) :
    Fits (millis * 1000) ↔
      if millis * 1000 < 18446744073709551616 then ¬ now = 0 ∨ millis ≠ 0
      else now = 0 ∧ millis * 1000 % 18446744073709551616 = 0 := by
  -- a multiple of 1000 is even, so that it does not wrap to the last number
  have hodd : millis * 1000 % 18446744073709551616 ≠ 18446744073709551615 := by omega
  unfold Fits
  split
  · rename_i hsmall
    rw [Nat.mod_eq_of_lt hsmall] at h
    constructor
    · intro _
      omega
    · intro _
      left
      omega
  · rename_i hbig
    constructor
    · intro hfits
      rcases hfits with ⟨-, hsmall⟩ | ⟨-, hzero | hlast⟩
      · exact absurd hsmall hbig
      · rw [hzero] at h
        exact ⟨Nat.eq_zero_of_le_zero h, hzero⟩
      · exact absurd hlast hodd
    · intro ⟨_, hzero⟩
      exact Or.inr ⟨Nat.not_lt.mp hbig, Or.inl hzero⟩

theorem park_absolute_right_iff (ht : t < 9223372036854775808) :
    Right now (.park true t) ↔ Meets now (.park true t) := by
  have hnow := now.toNat_lt
  have hnowzero : now = 0 ↔ now.toNat = 0 := UInt64.toNat_inj.symm
  unfold Right run unsafePark Meets
  dsimp only
  rw [if_pos rfl]
  by_cases hneg : t < 0
  · rw [if_pos hneg]
    apply iff_of_true
    · show t * 1000 ≤ now.toNat
      omega
    · exact Or.inl hneg
  rw [if_neg hneg]
  simp only [hneg, false_or]
  have hdeadline : (UInt64.ofNat t.toNat * 1000).toNat = t.toNat * 1000 % 18446744073709551616 := by
    have hmillis : (UInt64.ofNat t.toNat).toNat = t.toNat := by
      rw [UInt64.toNat_ofNat']
      omega
    rw [UInt64.toNat_mul, hmillis]
    rfl
  by_cases hpast : UInt64.ofNat t.toNat * 1000 < now
  · have hpast' := UInt64.lt_iff_toNat_lt.mp hpast
    rw [if_pos hpast]
    show t * 1000 ≤ now.toNat ↔ _
    split
    · apply iff_of_true
      · omega
      · left
        rw [ne_eq, hnowzero]
        omega
    · apply iff_of_false
      · omega
      · rw [hnowzero]
        omega
  · have hpast' := UInt64.le_iff_toNat_le.mp (UInt64.not_lt.mp hpast)
    have hserves := serves_iff_fits (P := fun time => Passed now time (.park true t))
      (t.toNat * 1000)
      (fun time hafter => show t * 1000 ≤ time.toNat by omega)
      (fun time hpassed => by
        have hle : t * 1000 ≤ time.toNat := hpassed
        omega) hdeadline
    rw [if_neg hpast, yields_right_iff now (Or.inr (Or.inl rfl)) rfl, hserves, ne_eq, hnowzero]
    rw [hdeadline] at hpast'
    exact fits_millis_iff hpast'

theorem park_relative_right_iff (ht : t < 9223372036854775808) :
    Right now (.park false t) ↔ Meets now (.park false t) := by
  have hnow := now.toNat_lt
  unfold Right run unsafePark Meets
  dsimp only
  rw [if_neg Bool.false_ne_true]
  by_cases hneg : t < 0
  · rw [if_pos hneg]
    apply iff_of_true
    · constructor
      · omega
      · omega
    · left
      omega
  rw [if_neg hneg, yields_right_iff now (Or.inr (Or.inl rfl)) rfl]
  by_cases hzero : t = 0
  · rw [if_pos hzero]
    apply iff_of_true
    · constructor
      · intro time hne
        exact absurd rfl hne
      · intro _ time hpassed
        exact hpassed.1 hzero
    · left
      omega
  · have hpos : ¬ t ≤ 0 := by omega
    rw [if_neg hzero]
    simp only [hpos, false_or]
    apply serves_iff_fits (now.toNat + t.toNat / 1000)
    · intro time hafter
      constructor
      · exact hzero
      · omega
    · intro time hpassed
      have hle := hpassed.2
      omega
    · rw [UInt64.toNat_add, UInt64.toNat_ofNat']
      omega

/-- A thread that blocks for a time is kept asleep until it has passed exactly if the deadline in
microseconds fits into 64 bits. -/
theorem timed_right_iff (now : UInt64) (c : TimedCall) (h : c.Accepted) :
    c.Right now ↔ c.Meets now := by
  cases c with
  | wait0 interrupted holdCount monitor t => exact wait0_right_iff h
  | sleepNanos0 interrupted t => exact sleepNanos0_right_iff h
  | park isAbsolute t =>
    cases isAbsolute with
    | true => exact park_absolute_right_iff h.2
    | false => exact park_relative_right_iff h.2

/-- To wait for a second is right. -/
theorem second_right : Right 1000 (.wait0 false 1 7 1000) :=
  (timed_right_iff 1000 (.wait0 false 1 7 1000) ⟨by decide, by decide⟩).mpr
    (Or.inr (Or.inr (Or.inr (Or.inl (by decide)))))

/-- To wait for `Long.MAX_VALUE` milliseconds ends at once: the deadline wraps to a time before
the call. -/
theorem longest_wait_ends : ¬ Right 5000 (.wait0 false 1 7 9223372036854775807) := by
  intro h
  have hserves := (yields_right_iff 5000 (Or.inr (Or.inr rfl)) rfl).mp h
  have hpassed := hserves.1 5000 (by decide) (by decide)
  exact absurd hpassed.2 (by decide)

end TimedCall

end TraceJvm
