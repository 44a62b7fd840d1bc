import TraceJvm.Scheduler
import Mathlib.Data.List.Perm.Basic

/-! The scheduler runs the calls of a thread in the order in which they were queued, one at a time,
and keeps every thread that has calls in its list. -/
namespace TraceJvm

open Transition Function List Option

namespace Scheduler

variable {s s' : Scheduler} {t : ℕ}

/-! ### The choice of the next thread -/

theorem rotate_spec (time : UInt64) (a b : List ℕ) :
    (∀ t l, s.rotate time a.length (a ++ b) = (some t, l) →
      l.Perm (a ++ b) ∧ l.getLast? = some t) ∧
    (∀ l, s.rotate time a.length (a ++ b) = (none, l) →
      l = b ++ a ∧ ∀ t ∈ a, s.isSleeping t time = true) := by
  induction a generalizing b with
  | nil =>
    refine ⟨fun t l h => ?_, fun l h => ?_⟩
    · simp [rotate] at h
    · simp only [length_nil, rotate, nil_append, Prod.mk.injEq, true_and] at h
      subst h
      simp
  | cons x a ih =>
    obtain ⟨ihsome, ihnone⟩ := ih (b ++ [x])
    have hcons : (x :: a).length = a.length + 1 := rfl
    refine ⟨fun t l h => ?_, fun l h => ?_⟩
    · rw [hcons, cons_append, rotate] at h
      split at h
      · simp only [Prod.mk.injEq, some.injEq] at h
        obtain ⟨rfl, rfl⟩ := h
        exact ⟨perm_append_singleton _ _, getLast?_concat⟩
      · rw [append_assoc] at h
        obtain ⟨hperm, hlast⟩ := ihsome t l h
        refine ⟨hperm.trans ?_, hlast⟩
        rw [← append_assoc]
        exact perm_append_singleton _ _
    · rw [hcons, cons_append, rotate] at h
      split at h
      · simp at h
      · rename_i hsleep
        rw [append_assoc] at h
        obtain ⟨rfl, hall⟩ := ihnone l h
        refine ⟨by simp, fun t ht => ?_⟩
        rcases mem_cons.mp ht with rfl | ht
        · simpa using hsleep
        · exact hall t ht

theorem closest_spec (l : List ℕ) (i info best : ℕ) (time : UInt64) :
    (s.closest i l (info, best, time) = (info, best, time) ∧ ∀ t ∈ l, ¬ s.wakeupTime t < time) ∨
      ∃ k, (s.closest i l (info, best, time)).2.1 = i + k ∧
        l[k]? = some (s.closest i l (info, best, time)).1 := by
  induction l generalizing i info best time with
  | nil => exact .inl ⟨rfl, by simp⟩
  | cons x l ih =>
    rw [closest]
    split
    · rename_i hlt
      right
      rcases ih (i + 1) x i (s.wakeupTime x) with ⟨heq, -⟩ | ⟨k, hk, hget⟩
      · exact ⟨0, by simp [heq], by simp [heq]⟩
      · exact ⟨k + 1, by omega, by simpa using hget⟩
    · rename_i hge
      rcases ih (i + 1) info best time with ⟨heq, hall⟩ | ⟨k, hk, hget⟩
      · refine .inl ⟨heq, fun t ht => ?_⟩
        rcases mem_cons.mp ht with rfl | ht
        · exact hge
        · exact hall t ht
      · exact .inr ⟨k + 1, by omega, by simpa using hget⟩

variable {time : UInt64}

theorem isSleeping_until {time' : UInt64} (h : s.isSleeping t time = true)
    (hdeadline : s.wakeupTime t = 0 ∨ time' ≤ s.wakeupTime t) : s.isSleeping t time' = true := by
  unfold isSleeping at h ⊢
  unfold wakeupTime at hdeadline
  cases hw : s.wakeupInfo t with
  | none =>
    rw [hw] at h
    cases h
  | some w =>
    rw [hw] at h hdeadline
    dsimp only at h hdeadline ⊢
    split at h
    · rename_i hkind
      rw [if_pos hkind]
      exact h
    · rename_i hkind
      rw [if_neg hkind]
      split at h
      · rename_i hblocked
        rw [if_pos hblocked]
        simp only [Bool.and_eq_true, Bool.or_eq_true, decide_eq_true_eq] at h ⊢
        exact ⟨h.1, hdeadline⟩
      · cases h

theorem isSleeping_of_max {time' : UInt64} (hs : s.isSleeping t time = true)
    (hmax : ¬ s.wakeupTime t < 18446744073709551615) : s.isSleeping t time' = true := by
  apply isSleeping_until hs
  right
  rw [UInt64.lt_iff_toNat_lt] at hmax
  rw [UInt64.le_iff_toNat_le]
  have hlt := time'.toNat_lt
  have hvalue : (18446744073709551615 : UInt64).toNat = 18446744073709551615 := rfl
  omega

/-- The chosen thread is in the list, and last there unless it is asleep. -/
theorem getNextThr_spec {l : List ℕ} (h : s.getNextThr time = some (t, l)) :
    l.Perm s.roundRobin ∧ t ∈ l ∧ ∀ time', s.isSleeping t time' = false → l.getLast? = some t := by
  unfold getNextThr at h
  obtain ⟨hsome, hnone⟩ := rotate_spec (s := s) time s.roundRobin []
  rw [append_nil] at hsome hnone
  split at h
  · rename_i u l' hrot
    simp only [some.injEq, Prod.mk.injEq] at h
    obtain ⟨rfl, rfl⟩ := h
    obtain ⟨hperm, hlast⟩ := hsome _ _ hrot
    exact ⟨hperm, mem_of_getLast? hlast, fun _ _ => hlast⟩
  · rename_i l' hrot
    obtain ⟨hl, hall⟩ := hnone _ hrot
    rw [nil_append] at hl
    subst hl
    split at h
    · cases h
    · rename_i last hlast
      dsimp only at h
      split at h
      · cases h
      · rename_i best hbest
        simp only [some.injEq, Prod.mk.injEq] at h
        obtain ⟨rfl, rfl⟩ := h
        have hperm : (s.roundRobin.eraseIdx
            (s.closest 0 s.roundRobin (last, 0, 18446744073709551615)).2.1 ++ [best]).Perm
            s.roundRobin := by
          obtain ⟨hlt, hget⟩ := List.getElem?_eq_some_iff.mp hbest
          rw [← hget]
          exact (perm_append_singleton _ _).trans (getElem_cons_eraseIdx_perm hlt)
        refine ⟨hperm, ?_⟩
        rcases closest_spec (s := s) s.roundRobin 0 last 0 18446744073709551615 with
          ⟨heq, hmax⟩ | ⟨k, hk, hget⟩
        · rw [heq]
          have hmem := mem_of_getLast? hlast
          refine ⟨(heq ▸ hperm).mem_iff.mpr hmem, fun time' hawake => ?_⟩
          rw [isSleeping_of_max (hall last hmem) (hmax last hmem)] at hawake
          cases hawake
        · rw [Nat.zero_add] at hk
          rw [hk] at hbest
          cases hbest.symm.trans hget
          exact ⟨by simp, fun _ _ => by simp⟩

end Scheduler

/-! ### The queues and their history -/

structure SchedulerInv (s : Scheduler) : Prop where
  nodup : s.roundRobin.Nodup
  listed : ∀ {t : ℕ}, s.callQueue t ≠ [] → t ∈ s.roundRobin
  kept : ∀ t, s.enqueued t = s.finished t ++ (s.callQueue t).map PendingCall.record
  begun : ∀ t, s.begun t =
    s.finished t ++ ((s.callQueue t).filter PendingCall.started).map PendingCall.record
  waiting : ∀ t, ∀ c ∈ (s.callQueue t).tail, c.started = false
  once : ∀ t, (s.enqueued t).Nodup
  known : ∀ {t r : ℕ}, r ∈ s.enqueued t → ∃ rec, s.records[r]? = some rec ∧ rec.thread = t

def RecordsInv (s : Scheduler) : Prop :=
  ∀ {r : ℕ} {rec : ExecutionRecord}, s.records[r]? = some rec →
    (rec.status = .done ↔ r ∈ s.finished rec.thread)

namespace SchedulerInv

variable {s s' : Scheduler} {t : ℕ}

theorem known_lt (h : SchedulerInv s) {r : ℕ} (hr : r ∈ s.enqueued t) : r < s.records.length := by
  obtain ⟨rec, hrec, -⟩ := h.known hr
  exact (List.getElem?_eq_some_iff.mp hrec).1

theorem mem_enqueued_of_finished (h : SchedulerInv s) {r : ℕ} (hr : r ∈ s.finished t) :
    r ∈ s.enqueued t := by
  rw [h.kept]
  exact mem_append_left _ hr

theorem congr (h : SchedulerInv s) (hl : s'.roundRobin.Perm s.roundRobin)
    (hq : s'.callQueue = s.callQueue) (hr : s'.records = s.records)
    (he : s'.enqueued = s.enqueued) (hb : s'.begun = s.begun) (hf : s'.finished = s.finished) :
    SchedulerInv s' where
  nodup := hl.nodup_iff.mpr h.nodup
  listed ht := hl.mem_iff.mpr (h.listed (hq ▸ ht))
  kept t := by rw [he, hf, hq]; exact h.kept t
  begun t := by rw [hb, hf, hq]; exact h.begun t
  waiting t := by rw [hq]; exact h.waiting t
  once t := by rw [he]; exact h.once t
  known ht := by rw [hr]; exact h.known (he ▸ ht)

theorem newInfo (h : SchedulerInv s) (ht : t ∉ s.roundRobin) : SchedulerInv (s.newInfo t) := by
  have hq : (s.newInfo t).callQueue = s.callQueue := by
    apply update_eq_self_iff.mpr
    by_contra hne
    exact ht (h.listed fun hnil => hne hnil.symm)
  constructor
  · exact nodup_append.mpr ⟨h.nodup, nodup_singleton t, by
      intro a ha b hb
      rw [mem_singleton.mp hb]
      rintro rfl
      exact ht ha⟩
  · intro u hu
    rw [hq] at hu
    exact mem_append_left _ (h.listed hu)
  · intro u
    rw [hq]
    exact h.kept u
  · intro u
    rw [hq]
    exact h.begun u
  · intro u
    rw [hq]
    exact h.waiting u
  · exact h.once
  · exact h.known

/-- A call queued for a thread in the list. -/
theorem push (h : SchedulerInv s) (ht : t ∈ s.roundRobin) (isRef : Bool) :
    SchedulerInv { s with
      callQueue := update s.callQueue t (s.callQueue t ++ [⟨s.records.length, isRef, false⟩])
      records := s.records ++ [⟨.more, 0, 0, t⟩]
      enqueued := update s.enqueued t (s.enqueued t ++ [s.records.length]) } := by
  constructor
  · exact h.nodup
  · intro u hu
    by_cases hut : u = t
    · exact hut ▸ ht
    · exact h.listed (by simpa [update_of_ne hut] using hu)
  · intro u
    by_cases hut : u = t
    · subst hut
      simp [h.kept]
    · simpa [update_of_ne hut] using h.kept u
  · intro u
    by_cases hut : u = t
    · subst hut
      simpa using h.begun u
    · simpa [update_of_ne hut] using h.begun u
  · intro u c hc
    by_cases hut : u = t
    · subst hut
      simp only [update_self] at hc
      cases hq : s.callQueue u with
      | nil => simp [hq] at hc
      | cons d q =>
        simp only [hq, cons_append, tail_cons, mem_append, mem_singleton] at hc
        rcases hc with hc | rfl
        · exact h.waiting u c (by simpa [hq] using hc)
        · rfl
    · exact h.waiting u c (by simpa [update_of_ne hut] using hc)
  · intro u
    by_cases hut : u = t
    · subst hut
      simp only [update_self]
      refine nodup_append.mpr ⟨h.once u, nodup_singleton _, ?_⟩
      intro a ha b hb
      rw [mem_singleton.mp hb]
      exact Nat.ne_of_lt (h.known_lt ha)
    · simpa [update_of_ne hut] using h.once u
  · intro u r hr
    by_cases hut : u = t
    · subst hut
      simp only [update_self, mem_append, mem_singleton] at hr
      rcases hr with hr | rfl
      · obtain ⟨rec, hrec, hth⟩ := h.known hr
        exact ⟨rec, by rw [getElem?_append_left (h.known_lt hr)]; exact hrec, hth⟩
      · exact ⟨⟨.more, 0, 0, u⟩, by simp, rfl⟩
    · simp only [update_of_ne hut] at hr
      obtain ⟨rec, hrec, hth⟩ := h.known hr
      exact ⟨rec, by rw [getElem?_append_left (h.known_lt hr)]; exact hrec, hth⟩

theorem run (h : SchedulerInv s) (c : CallRequest) : SchedulerInv (s.run c) := by
  unfold Scheduler.run
  by_cases hc : c.thread ∈ s.roundRobin
  · simp only [if_pos hc]
    exact h.push hc c.returnsReference
  · simp only [if_neg hc]
    have hin : c.thread ∈ (s.newInfo c.thread).roundRobin := by simp [Scheduler.newInfo]
    exact (h.newInfo hc).push hin c.returnsReference

/-- The first call of a thread, begun if it was not. -/
theorem begin (h : SchedulerInv s) {c : PendingCall} {rest : List PendingCall}
    (hq : s.callQueue t = c :: rest) :
    SchedulerInv ((if c.started then s
      else { s with begun := update s.begun t (s.begun t ++ [c.record]) }).setQueue t
        ({ c with started := true } :: rest)) := by
  have hrest : ∀ d ∈ rest, d.started = false := fun d hd => h.waiting t d (by simpa [hq] using hd)
  have hfilter : rest.filter PendingCall.started = [] := by
    rw [filter_eq_nil_iff]
    intro d hd
    simp [hrest d hd]
  have hkept := h.kept t
  have hbegun := h.begun t
  rw [hq] at hkept hbegun
  constructor
  · cases hc : c.started <;> exact h.nodup
  · intro u hu
    have hold : u ∈ s.roundRobin := by
      by_cases hut : u = t
      · exact h.listed (by rw [hut, hq]; exact cons_ne_nil _ _)
      · apply h.listed
        cases hc : c.started <;>
          simpa [Scheduler.setQueue, update_of_ne hut, hc] using hu
    cases hc : c.started <;> exact hold
  · intro u
    by_cases hut : u = t
    · subst hut
      cases hc : c.started <;> simpa [Scheduler.setQueue] using hkept
    · cases hc : c.started <;>
        simpa [Scheduler.setQueue, update_of_ne hut] using h.kept u
  · intro u
    by_cases hut : u = t
    · subst hut
      cases hc : c.started with
      | false | true => simpa [Scheduler.setQueue, hc, hfilter] using hbegun
    · cases hc : c.started <;>
        simpa [Scheduler.setQueue, update_of_ne hut] using h.begun u
  · intro u d hd
    by_cases hut : u = t
    · subst hut
      cases hc : c.started <;>
        exact hrest d (by simpa [Scheduler.setQueue] using hd)
    · cases hc : c.started <;>
        exact h.waiting u d (by simpa [Scheduler.setQueue, update_of_ne hut, hc] using hd)
  · intro u
    cases hc : c.started <;> exact h.once u
  · intro u r hr
    cases hc : c.started <;> exact h.known (by simpa [Scheduler.setQueue, hc] using hr)

/-- The first call of a thread has finished and leaves the queue. -/
theorem complete (h : SchedulerInv s) {c d : PendingCall} {rest : List PendingCall}
    (hq : s.callQueue t = c :: rest) (hd : d.record = c.record) (hc : c.started = true) :
    SchedulerInv ((s.setQueue t rest).finish t d) := by
  have hrest : ∀ d ∈ rest, d.started = false := fun d hd => h.waiting t d (by simpa [hq] using hd)
  have hfilter : rest.filter PendingCall.started = [] := by
    rw [filter_eq_nil_iff]
    intro d hd
    simp [hrest d hd]
  have hkept := h.kept t
  have hbegun := h.begun t
  rw [hq] at hkept hbegun
  constructor
  · exact h.nodup
  · intro u hu
    by_cases hut : u = t
    · exact h.listed (by rw [hut, hq]; exact cons_ne_nil _ _)
    · exact h.listed (by simpa [Scheduler.setQueue, Scheduler.finish, hut] using hu)
  · intro u
    by_cases hut : u = t
    · subst hut
      simpa [Scheduler.setQueue, Scheduler.finish, hd] using hkept
    · simpa [Scheduler.setQueue, Scheduler.finish, hut] using h.kept u
  · intro u
    by_cases hut : u = t
    · subst hut
      simpa [Scheduler.setQueue, Scheduler.finish, hd, hc, hfilter] using hbegun
    · simpa [Scheduler.setQueue, Scheduler.finish, hut] using h.begun u
  · intro u e he
    by_cases hut : u = t
    · subst hut
      refine hrest e (mem_of_mem_tail ?_)
      simpa [Scheduler.setQueue, Scheduler.finish] using he
    · exact h.waiting u e (by simpa [Scheduler.setQueue, Scheduler.finish, hut] using he)
  · exact h.once
  · exact h.known

theorem remove (h : SchedulerInv s) {l : List ℕ} (hl : l.Sublist s.roundRobin)
    (hout : ∀ u ∈ s.roundRobin, u ∉ l → s.callQueue u = []) :
    SchedulerInv { s with roundRobin := l } :=
  { h with
    nodup := h.nodup.sublist hl
    listed {u} hu := by
      by_contra hnot
      exact hu (hout u (h.listed hu) hnot) }

end SchedulerInv

namespace RecordsInv

variable {s s' : Scheduler} {t : ℕ}

theorem congr (h : RecordsInv s) (hr : s'.records = s.records) (hf : s'.finished = s.finished) :
    RecordsInv s' := by
  intro r rec hrec
  rw [hf]
  exact h (hr ▸ hrec)

theorem run (h : RecordsInv s) (hi : SchedulerInv s) (c : CallRequest) : RecordsInv (s.run c) := by
  have hrec : (s.run c).records = s.records ++ [⟨.more, 0, 0, c.thread⟩] := by
    unfold Scheduler.run
    by_cases hc : c.thread ∈ s.roundRobin <;> simp [hc, Scheduler.newInfo]
  have hfin : (s.run c).finished = s.finished := by
    unfold Scheduler.run
    by_cases hc : c.thread ∈ s.roundRobin <;> simp [hc, Scheduler.newInfo]
  intro r rec hr
  rw [hrec] at hr
  rw [hfin]
  by_cases hlt : r < s.records.length
  · rw [getElem?_append_left hlt] at hr
    exact h hr
  · obtain ⟨hlen, hget⟩ := List.getElem?_eq_some_iff.mp hr
    obtain rfl : r = s.records.length := by
      simp only [length_append, length_singleton] at hlen
      omega
    obtain rfl : ⟨.more, 0, 0, c.thread⟩ = rec := by simpa using hget
    refine iff_of_false (by simp) fun hmem => ?_
    exact hlt (hi.known_lt (hi.mem_enqueued_of_finished hmem))

theorem complete (h : RecordsInv s) (hi : SchedulerInv s) {c : PendingCall}
    (hc : c.record ∈ s.enqueued t) (result : ℕ) (handle : ℤ)
    (hr : s'.records = s.records.modify c.record fun r =>
      { r with status := .done, returned := result, jsHandle := handle })
    (hf : s'.finished = update s.finished t (s.finished t ++ [c.record])) :
    RecordsInv s' := by
  obtain ⟨rec₀, hrec₀, hth₀⟩ := hi.known hc
  intro r rec hrec
  rw [hr, getElem?_modify] at hrec
  rw [hf]
  by_cases hrc : c.record = r
  · subst hrc
    simp only [hrec₀, if_true, Option.map_eq_map, Option.map_some, some.injEq] at hrec
    subst hrec
    simp [hth₀]
  · simp only [hrc, if_false, Option.map_eq_map, Option.map_id'] at hrec
    rw [h hrec]
    by_cases hth : rec.thread = t
    · simp [hth, Ne.symm hrc]
    · simp [update_of_ne hth]

end RecordsInv

namespace Scheduler

variable {s s' : Scheduler} {t : ℕ}

theorem run_frame (s : Scheduler) (c : CallRequest) (hc : c.thread ≠ t) :
    (s.run c).callQueue t = s.callQueue t ∧ (s.run c).finished = s.finished := by
  unfold run
  by_cases hin : c.thread ∈ s.roundRobin
  · simp [hin, Ne.symm hc]
  · simp [hin, newInfo, Ne.symm hc]

theorem foldl_run (l : List CallRequest) (s : Scheduler) (hl : ∀ c ∈ l, c.thread ≠ t)
    (hi : SchedulerInv s) : SchedulerInv (l.foldl run s) ∧
      (l.foldl run s).callQueue t = s.callQueue t ∧ (l.foldl run s).finished = s.finished ∧
      (RecordsInv s → RecordsInv (l.foldl run s)) := by
  induction l generalizing s with
  | nil => exact ⟨hi, rfl, rfl, id⟩
  | cons c l ih =>
    obtain ⟨hq, hf⟩ := run_frame s c (hl c mem_cons_self)
    obtain ⟨h1, h2, h3, h4⟩ := ih (s.run c) (fun d hd => hl d (mem_cons_of_mem _ hd)) (hi.run c)
    exact ⟨h1, h2.trans hq, h3.trans hf, fun hr => h4 (hr.run hi c)⟩

variable {rest : List PendingCall}

variable {c : PendingCall}

/-- `call_interpreter` begins the first call of the thread and leaves it in the queue. -/
theorem callInterpreter_spec {p : Poll} (hi : SchedulerInv s) (hq : s.callQueue t = c :: rest)
    (h : s.callInterpreter t c rest p = some s') :
    SchedulerInv s' ∧ s'.callQueue t = { c with started := true } :: rest ∧
      s'.finished = s.finished ∧ (RecordsInv s → RecordsInv s') := by
  have ht : t ∈ s.roundRobin := hi.listed (by rw [hq]; exact cons_ne_nil _ _)
  simp only [callInterpreter, Option.ite_none_right_eq_some, some.injEq] at h
  obtain ⟨hspawn, rfl⟩ := h
  have hne : ∀ d ∈ p.spawned, d.thread ≠ t := by
    rintro d hd rfl
    exact hspawn d hd ht
  obtain ⟨h1, h2, h3, h4⟩ := foldl_run p.spawned _ hne (hi.begin hq)
  refine ⟨h1, ?_, ?_, ?_⟩
  · rw [h2]
    simp [setQueue]
  · rw [h3]
    cases c.started <;> rfl
  · intro hr
    apply h4
    cases c.started <;> exact hr.congr rfl rfl

theorem modifyRecord_inv (hi : SchedulerInv s) (r : ℕ) (f : ExecutionRecord → ExecutionRecord)
    (hf : ∀ rec, (f rec).thread = rec.thread) :
    SchedulerInv { s with records := s.records.modify r f } :=
  { hi with
    known {t r'} ht := by
      obtain ⟨rec, hrec, hth⟩ := hi.known ht
      by_cases hr : r = r'
      · exact ⟨f rec, by simp [hr, hrec], (hf rec).trans hth⟩
      · exact ⟨rec, by simp [hr, hrec], hth⟩ }

theorem unshift_frame (s : Scheduler) (t : ℕ) :
    (s.unshift t).records = s.records ∧ (s.unshift t).finished = s.finished := by
  unfold unshift
  dsimp only
  split
  · exact ⟨rfl, rfl⟩
  · exact ⟨rfl, rfl⟩

theorem unshift_inv {d : PendingCall} (hi : SchedulerInv s)
    (hq : s.callQueue t = c :: rest) (hd : d.record = c.record) (hc : c.started = true) :
    SchedulerInv ((s.finish t d).unshift t) := by
  have hdone := hi.complete hq hd hc
  have htail : ((s.finish t d).callQueue t).tail = rest := by
    show (s.callQueue t).tail = rest
    rw [hq, tail_cons]
  unfold unshift
  rw [htail]
  dsimp only
  split
  · rename_i hnil
    have hout : ∀ u ∈ s.roundRobin, u ∉ s.roundRobin.erase t →
        ((s.setQueue t rest).finish t d).callQueue u = [] := by
      intro u hu hnot
      have hut : u = t := by
        by_contra hne
        exact hnot ((mem_erase_of_ne hne).mpr hu)
      rw [hut]
      exact hnil
    exact (hdone.remove erase_sublist hout).congr (List.Perm.refl _) rfl rfl rfl rfl rfl
  · exact hdone

theorem afterCall_inv (hi : SchedulerInv s)
    (hq : s.callQueue t = { c with started := true } :: rest) (f : CallFuture) :
    SchedulerInv (s.afterCall t c f) := by
  cases f with
  | notReady w => exact hi.congr (List.Perm.refl _) rfl rfl rfl rfl rfl
  | ready result handle =>
    exact unshift_inv (modifyRecord_inv hi c.record _ fun _ => rfl) hq rfl rfl

theorem afterCall_records (hi : SchedulerInv s)
    (hq : s.callQueue t = { c with started := true } :: rest) (hr : RecordsInv s)
    (f : CallFuture) : RecordsInv (s.afterCall t c f) := by
  cases f with
  | notReady w => exact hr.congr rfl rfl
  | ready result handle =>
    have hmem : c.record ∈ s.enqueued t := by
      rw [hi.kept, hq]
      simp
    apply hr.complete hi hmem result (if c.returnsReference && result ≠ 0 then handle else -1)
    · exact (unshift_frame _ t).1
    · exact (unshift_frame _ t).2

variable {st : SchedulerStatus}

theorem stepAux_inv (clock : ℕ → UInt64) (p : Poll) (n : ℕ)
    (hi : SchedulerInv s) (h : stepAux clock p n s = some (st, s')) :
    SchedulerInv s' ∧ (RecordsInv s → RecordsInv s') := by
  induction n generalizing s with
  | zero => cases h
  | succ n ih =>
    rw [stepAux] at h
    split at h
    · cases h
      exact ⟨hi, id⟩
    split at h
    · cases h
      exact ⟨hi, id⟩
    rename_i u l hnext
    obtain ⟨hperm, hmem, hlast⟩ := getNextThr_spec hnext
    have hi₁ : SchedulerInv { s with roundRobin := l } := hi.congr hperm rfl rfl rfl rfl rfl
    dsimp only at h
    split at h
    · cases h
      exact ⟨hi₁, fun hr => hr.congr rfl rfl⟩
    rename_i hawake
    have hi₂ : SchedulerInv { s with roundRobin := l, wakeupInfo := update s.wakeupInfo u none } :=
      hi₁.congr (List.Perm.refl _) rfl rfl rfl rfl rfl
    split at h
    · -- the thread has no calls and stands last in the list
      rename_i hempty
      have hl : l.getLast? = some u := hlast _ ((Bool.not_eq_true _).mp hawake)
      have hout : ∀ v ∈ l, v ∉ l.dropLast → s.callQueue v = [] := by
        intro v hv hnot
        have hsplit := dropLast_append_getLast? u hl
        rw [← hsplit, mem_append] at hv
        rcases hv with hv | hv
        · exact absurd hv hnot
        · rw [mem_singleton.mp hv]
          exact hempty
      obtain ⟨h1, h2⟩ := ih (hi₂.remove (dropLast_sublist l) hout) h
      exact ⟨h1, fun hr => h2 (hr.congr rfl rfl)⟩
    · rename_i c rest hq
      simp only [Option.map_eq_some_iff, Prod.mk.injEq] at h
      obtain ⟨s₁, hcall, -, rfl⟩ := h
      obtain ⟨h1, h2, -, h4⟩ := callInterpreter_spec hi₂ hq hcall
      refine ⟨afterCall_inv h1 h2 p.future, fun hr => ?_⟩
      exact afterCall_records h1 h2 (h4 (hr.congr rfl rfl)) p.future

theorem executeLoop_inv (record : ℕ) (polls : List Poll)
    (hi : SchedulerInv s) (h : executeLoop t record polls s = some (st, s')) : SchedulerInv s' := by
  induction polls generalizing s with
  | nil =>
    rw [executeLoop] at h
    split at h
    · cases h
      exact hi
    · cases h
  | cons p polls ih =>
    rw [executeLoop] at h
    split at h
    · cases h
      exact hi
    rename_i c rest hq
    dsimp only at h
    split at h
    · cases h
    rename_i s₁ hcall
    obtain ⟨h1, h2, -, -⟩ := callInterpreter_spec hi hq hcall
    split at h
    · cases h
      exact h1
    · have hdone : SchedulerInv ((s₁.setQueue t (s₁.callQueue t).tail).finish t c) := by
        rw [h2, tail_cons]
        exact h1.complete h2 rfl rfl
      split at h
      · cases h
        exact hdone
      · exact ih hdone h

/-- Every transition keeps the queues and their history in agreement. -/
theorem schedulerStep_inv {e : SchedulerEvent} (hi : SchedulerInv s)
    (h : schedulerStep s e = some s') : SchedulerInv s' := by
  cases e with
  | run c =>
    cases h
    exact hi.run c
  | step clock p =>
    simp only [schedulerStep, Option.map_eq_some_iff] at h
    obtain ⟨⟨st, s₁⟩, hstep, rfl⟩ := h
    exact (stepAux_inv clock p _ hi hstep).1
  | executeImmediately record polls =>
    simp only [schedulerStep, Option.map_eq_some_iff] at h
    obtain ⟨⟨st, s₁⟩, hstep, rfl⟩ := h
    unfold executeImmediately at hstep
    split at hstep
    · cases hstep
    · split at hstep
      · exact executeLoop_inv record polls hi hstep
      · cases hstep
        exact hi
  | wakeup t w | flags f =>
    cases h
    exact hi.congr (List.Perm.refl _) rfl rfl rfl rfl rfl

/-- `execute_immediately` does not complete a call: the thread has none, or its first call is not
ready. -/
def Unforced (s : Scheduler) (e : SchedulerEvent) : Prop :=
  ∀ record polls rec, e = .executeImmediately record polls → s.records[record]? = some rec →
    s.callQueue rec.thread ≠ [] → ∀ p ∈ polls.head?, ∃ w, p.future = .notReady w

theorem executeLoop_unforced {record : ℕ} {polls : List Poll}
    (hi : SchedulerInv s) (hr : RecordsInv s)
    (hok : s.callQueue t ≠ [] → ∀ p ∈ polls.head?, ∃ w, p.future = .notReady w)
    (h : executeLoop t record polls s = some (st, s')) : RecordsInv s' := by
  rw [executeLoop] at h
  split at h
  · cases h
    exact hr
  · rename_i c rest hq
    cases polls with
    | nil => cases h
    | cons p polls =>
      dsimp only at h
      split at h
      · cases h
      · rename_i s₁ hcall
        obtain ⟨-, -, -, h4⟩ := callInterpreter_spec hi hq hcall
        obtain ⟨w, hw⟩ := hok (by simp [hq]) p (by simp)
        rw [hw] at h
        cases h
        exact h4 hr

/-- A transition that does not force a call keeps the records right. -/
theorem schedulerStep_records {e : SchedulerEvent} (hi : SchedulerInv s) (hr : RecordsInv s)
    (hok : s.Unforced e) (h : schedulerStep s e = some s') : RecordsInv s' := by
  cases e with
  | run c =>
    cases h
    exact hr.run hi c
  | step clock p =>
    simp only [schedulerStep, Option.map_eq_some_iff] at h
    obtain ⟨⟨st, s₁⟩, hstep, rfl⟩ := h
    exact (stepAux_inv clock p _ hi hstep).2 hr
  | executeImmediately record polls =>
    simp only [schedulerStep, Option.map_eq_some_iff] at h
    obtain ⟨⟨st, s₁⟩, hstep, rfl⟩ := h
    unfold executeImmediately at hstep
    split at hstep
    · cases hstep
    · rename_i rec hrec
      split at hstep
      · exact executeLoop_unforced hi hr (hok record polls rec rfl hrec) hstep
      · cases hstep
        exact hr
  | wakeup t w | flags f =>
    cases h
    exact hr.congr rfl rfl

end Scheduler

/-- The calls of every thread are executed once each, in the order in which they were queued and
never two at a time; a call that has not finished is still queued. -/
structure DeliversInOrder (s : Scheduler) : Prop where
  once : ∀ t, (s.enqueued t).Nodup
  begunInOrder : ∀ t, s.begun t <+: s.enqueued t
  finishedInOrder : ∀ t, s.finished t <+: s.begun t
  oneAtATime : ∀ t, (s.begun t).length ≤ (s.finished t).length + 1
  kept : ∀ t, s.enqueued t = s.finished t ++ (s.callQueue t).map PendingCall.record

structure ListsThreads (s : Scheduler) : Prop where
  nodup : s.roundRobin.Nodup
  listed : ∀ t, s.enqueued t ≠ s.finished t → s.roundRobin.count t = 1

namespace SchedulerInv

variable {s : Scheduler}

theorem init (f : ThreadFlags) : SchedulerInv (Scheduler.init f) where
  nodup := nodup_nil
  listed h := absurd rfl h
  kept _ := rfl
  begun _ := rfl
  waiting _ _ hc := by cases hc
  once _ := nodup_nil
  known h := by cases h

theorem begun_cases (h : SchedulerInv s) (t : ℕ) : s.begun t = s.finished t ∨
    ∃ c rest, s.callQueue t = c :: rest ∧ s.begun t = s.finished t ++ [c.record] := by
  have hb := h.begun t
  cases hq : s.callQueue t with
  | nil => exact .inl (by simpa [hq] using hb)
  | cons c rest =>
    have hfilter : rest.filter PendingCall.started = [] := by
      rw [filter_eq_nil_iff]
      intro d hd
      simp [h.waiting t d (by simpa [hq] using hd)]
    cases hc : c.started with
    | false => exact .inl (by simpa [hq, hc, hfilter] using hb)
    | true => exact .inr ⟨c, rest, rfl, by simpa [hq, hc, hfilter] using hb⟩

theorem deliversInOrder (h : SchedulerInv s) : DeliversInOrder s where
  once := h.once
  begunInOrder t := by
    rw [h.kept]
    rcases h.begun_cases t with hb | ⟨c, rest, hq, hb⟩
    · rw [hb]
      exact prefix_append _ _
    · rw [hb, hq]
      exact ⟨rest.map PendingCall.record, by simp⟩
  finishedInOrder t := by
    rw [h.begun]
    exact prefix_append _ _
  oneAtATime t := by
    rcases h.begun_cases t with hb | ⟨c, rest, hq, hb⟩ <;> simp [hb]
  kept := h.kept

theorem listsThreads (h : SchedulerInv s) : ListsThreads s where
  nodup := h.nodup
  listed t ht := by
    apply count_eq_one_of_mem h.nodup
    apply h.listed
    intro hnil
    apply ht
    rw [h.kept, hnil]
    simp

end SchedulerInv

/-- In every run the scheduler executes each call once and in order and lists every thread with
unfinished calls once; in every run in which no call is completed by force, a record is done
exactly when its call has finished. -/
theorem scheduler_delivers (f : ThreadFlags) {s : Scheduler} :
    (Reachable schedulerStep (Scheduler.init f) s → DeliversInOrder s ∧ ListsThreads s) ∧
      (Runs schedulerStep Scheduler.Unforced (Scheduler.init f) s →
        ∀ r rec, s.records[r]? = some rec →
          (rec.status = .done ↔ r ∈ s.finished rec.thread)) := by
  constructor
  · intro h
    have hi := h.invariant SchedulerInv (.init f) fun _ _ _ hv _ hstep =>
      Scheduler.schedulerStep_inv hv hstep
    exact ⟨hi.deliversInOrder, hi.listsThreads⟩
  · intro h r rec hrec
    have hboth := h.invariant (fun v => SchedulerInv v ∧ RecordsInv v)
      ⟨.init f, fun hr => by cases hr⟩ fun _ _ _ hv hok hstep =>
        ⟨Scheduler.schedulerStep_inv hv.1 hstep,
          Scheduler.schedulerStep_records hv.1 hv.2 hok hstep⟩
    exact hboth.2 hrec

def idleFlags : ThreadFlags := ⟨fun _ => false, fun _ => false, fun _ => false, id, false⟩

/-- A call that is queued and then run by the loop of the scheduler. -/
theorem scheduler_delivers_stepped :
    ∃ s, Runs schedulerStep Scheduler.Unforced (Scheduler.init idleFlags) s ∧
      s.finished 0 = [0] ∧ DeliversInOrder s ∧
      ∀ rec, s.records[0]? = some rec → (rec.status = .done ↔ 0 ∈ s.finished rec.thread) := by
  have hfree : ∀ s c, Scheduler.Unforced s (.run c) := fun _ _ _ _ _ h => by cases h
  have hstep : ∀ s k p, Scheduler.Unforced s (.step k p) := fun _ _ _ _ _ _ h => by cases h
  have hsteps : ∃ s₁ s₂, schedulerStep (Scheduler.init idleFlags) (.run ⟨0, false⟩) = some s₁ ∧
      schedulerStep s₁ (.step (fun _ => 0) ⟨[], .ready 7 0⟩) = some s₂ ∧ s₂.finished 0 = [0] :=
    ⟨_, _, rfl, rfl, rfl⟩
  obtain ⟨s₁, s₂, h₁, h₂, hfin⟩ := hsteps
  have hruns := (Runs.refl.tail (hfree _ _) h₁).tail (hstep _ _ _) h₂
  exact ⟨s₂, hruns, hfin, ((scheduler_delivers idleFlags).1 hruns.reachable).1,
    (scheduler_delivers idleFlags).2 hruns 0⟩

/-- A call that `execute_immediately` completes is never marked as done, and for the second of
two calls it returns when the first has run. -/
theorem executeImmediately_leaves_record :
    (∃ s, Reachable schedulerStep (Scheduler.init idleFlags) s ∧
      ∃ rec, s.records[0]? = some rec ∧ 0 ∈ s.finished rec.thread ∧ rec.status = .more) ∧
    ∃ s s', Reachable schedulerStep (Scheduler.init idleFlags) s ∧
      s.executeImmediately 1 [⟨[], .ready 7 0⟩] = some (.done, s') ∧ s'.finished 0 = [0] ∧
      (s'.callQueue 0).map PendingCall.record = [1] := by
  constructor
  · refine ⟨_, reachable_of_run (w := [.run ⟨0, false⟩,
      .executeImmediately 0 [⟨[], .ready 7 0⟩]]) rfl, _, rfl, ?_, rfl⟩
    exact mem_singleton.mpr rfl
  · exact ⟨_, _, reachable_of_run (w := [.run ⟨0, false⟩, .run ⟨0, false⟩]) rfl, rfl, rfl, rfl⟩

end TraceJvm
