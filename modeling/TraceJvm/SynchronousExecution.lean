import TraceJvm.SchedulerVm

/-! `rr_scheduler_execute_immediately` against `rr_scheduler_step`: what running the calls of a
thread up to a record has to leave behind. -/
namespace TraceJvm

open Transition List Scheduler Option

/-- The calls up to and including the one of a record, and none if it is not queued. -/
def upTo (r : ℕ) (q : List PendingCall) : List PendingCall :=
  if q.any fun c => c.record = r then q.take ((q.findIdx fun c => c.record = r) + 1) else []

/-- The bookkeeping for a call that has returned `result`. -/
structure Completed (v : SchedulerVm) (c : PendingCall) (result : ℕ) : Prop where
  record : ∃ rec, v.scheduler.records[c.record]? = some rec ∧ rec.status = .done ∧
    rec.returned = result ∧
    if c.returnsReference && result ≠ 0 then
      ∃ i : ℕ, rec.jsHandle = (i : ℤ) ∧ v.jsHandles[i]? = some (some result)
    else rec.jsHandle = -1
  args : c.record ∈ v.freedArgs

/-- From `v` to `v'` exactly the calls of the thread up to the record have been run, in order and
with all of the bookkeeping, and the later ones are queued as before. -/
structure CompletedUpTo (v v' : SchedulerVm) (t r : ℕ) (result : ℕ → ℕ) : Prop where
  finished : v'.scheduler.finished t =
    v.scheduler.finished t ++ (upTo r (v.scheduler.callQueue t)).map PendingCall.record
  queued : v'.scheduler.callQueue t =
    (v.scheduler.callQueue t).drop (upTo r (v.scheduler.callQueue t)).length
  completed : ∀ c ∈ upTo r (v.scheduler.callQueue t), Completed v' c (result c.record)
  listed : upTo r (v.scheduler.callQueue t) ≠ [] →
    (t ∈ v'.scheduler.roundRobin ↔ v'.scheduler.callQueue t ≠ [])
  unlisted : upTo r (v.scheduler.callQueue t) = [] →
    (t ∈ v'.scheduler.roundRobin ↔ t ∈ v.scheduler.roundRobin)

/-- A step of the scheduler that is taken before the record is done, and in which the calls of `q`
return at once. -/
def Stepping (q : List PendingCall) (r : ℕ) (result : ℕ → ℕ) (v : SchedulerVm) :
    SchedulerVmEvent → Prop
  | .step _ poll => (∀ c ∈ q, ∃ handle, (poll c.record).future = .ready (result c.record) handle) ∧
      ∀ rec ∈ v.scheduler.records[r]?, rec.status ≠ .done
  | _ => False

namespace Completed

variable {v v' : SchedulerVm} {c d : PendingCall} {result t : ℕ}

theorem append (h : Completed v c result) {s : Scheduler} {l : List ExecutionRecord}
    (hs : s.records = v.scheduler.records ++ l) : Completed { v with scheduler := s } c result := by
  obtain ⟨rec, hrec, hrest⟩ := h.record
  refine ⟨⟨rec, ?_, hrest⟩, h.args⟩
  show s.records[c.record]? = some rec
  rw [hs, List.getElem?_append_left (List.getElem?_eq_some_iff.mp hrec).1, hrec]

theorem afterCall_getElem? {s : Scheduler} {f : CallFuture} {r : ℕ} (hne : r ≠ c.record) :
    (s.afterCall t c f).records[r]? = s.records[r]? := by
  cases f with
  | notReady w => rfl
  | ready result handle =>
    rw [Scheduler.afterCall, (unshift_frame _ t).1]
    simp [Scheduler.finish, Ne.symm hne]

/-- A later completion keeps what an earlier one has left. -/
theorem afterCall (h : Completed v d result) (hne : d.record ≠ c.record) {f : CallFuture}
    (hafter : v.afterCall t c f = some v') : Completed v' d result := by
  obtain ⟨rec, hrec, hdone, hret, hhandle⟩ := h.record
  cases f with
  | notReady w =>
    cases hafter
    exact ⟨⟨rec, hrec, hdone, hret, hhandle⟩, h.args⟩
  | ready x handle =>
    obtain ⟨-, ⟨-, rfl⟩ | ⟨-, rfl⟩⟩ := SchedulerVm.afterCall_ready hafter
    · refine ⟨⟨rec, (afterCall_getElem? hne).trans hrec, hdone, hret, ?_⟩, mem_cons_of_mem _ h.args⟩
      split
      · rename_i href
        rw [if_pos href] at hhandle
        obtain ⟨i, hi, hslot⟩ := hhandle
        exact ⟨i, hi, SlotTable.put_occupied hslot x⟩
      · rename_i href
        rwa [if_neg href] at hhandle
    · exact ⟨⟨rec, (afterCall_getElem? hne).trans hrec, hdone, hret, hhandle⟩,
        mem_cons_of_mem _ h.args⟩

/-- The completion of a call. -/
theorem of_afterCall {handle : ℤ} {rec : ExecutionRecord}
    (hrec : v.scheduler.records[c.record]? = some rec)
    (hafter : v.afterCall t c (.ready result handle) = some v') : Completed v' c result := by
  have hget : ∀ (s : Scheduler) (k : ℤ), s.records = v.scheduler.records →
      (s.afterCall t c (.ready result k)).records[c.record]? = some { rec with
        status := .done
        returned := result
        jsHandle := if c.returnsReference && result ≠ 0 then k else -1 } := by
    intro s k hs
    rw [Scheduler.afterCall, (unshift_frame _ t).1]
    simp [Scheduler.finish, hs, hrec]
  obtain ⟨-, ⟨href, rfl⟩ | ⟨href, rfl⟩⟩ := SchedulerVm.afterCall_ready hafter
  · refine ⟨⟨_, hget _ _ rfl, rfl, rfl, ?_⟩, mem_cons_self⟩
    rw [if_pos href]
    exact ⟨_, if_pos href, SlotTable.put_self ..⟩
  · have hnot : ¬ (c.returnsReference && result ≠ 0) = true := by
      rw [href]
      exact Bool.false_ne_true
    refine ⟨⟨_, hget _ _ rfl, rfl, rfl, ?_⟩, mem_cons_self⟩
    rw [if_neg hnot]
    exact if_neg hnot

end Completed

/-! ### Stepping -/

variable {rest : List PendingCall} {s : Scheduler}

theorem Scheduler.callInterpreter_others {s' : Scheduler} {t u : ℕ} {c : PendingCall}
    {p : Poll} (h : s.callInterpreter u c rest p = some s') (ht : t ≠ u)
    (hin : t ∈ s.roundRobin) : s'.callQueue t = s.callQueue t := by
  simp only [callInterpreter, Option.ite_none_right_eq_some, some.injEq] at h
  obtain ⟨hspawn, rfl⟩ := h
  have hfold : ∀ (l : List CallRequest) (s : Scheduler), (∀ r ∈ l, r.thread ≠ t) →
      (l.foldl run s).callQueue t = s.callQueue t := by
    intro l
    induction l with
    | nil => exact fun _ _ => rfl
    | cons r l ih =>
      intro s hl
      rw [foldl_cons, ih _ fun d hd => hl d (mem_cons_of_mem _ hd)]
      exact (run_frame s r (hl r mem_cons_self)).1
  rw [hfold]
  · cases c.started <;> simp [setQueue, ht]
  · rintro r hr rfl
    exact hspawn r hr hin

theorem Scheduler.afterCall_others {t u : ℕ} {c : PendingCall} (ht : t ≠ u)
    (f : CallFuture) : (s.afterCall u c f).callQueue t = s.callQueue t ∧
      (s.afterCall u c f).finished t = s.finished t := by
  cases f with
  | notReady w => exact ⟨rfl, rfl⟩
  | ready result handle =>
    rw [afterCall, unshift_callQueue, (unshift_frame _ u).2]
    simp [finish, ht]

theorem Scheduler.afterCall_ready {t : ℕ} {c d : PendingCall}
    (hnodup : s.roundRobin.Nodup) (hq : s.callQueue t = d :: rest) (result : ℕ) (handle : ℤ) :
    (s.afterCall t c (.ready result handle)).callQueue t = rest ∧
      (s.afterCall t c (.ready result handle)).finished t = s.finished t ++ [c.record] ∧
      (rest = [] → t ∉ (s.afterCall t c (.ready result handle)).roundRobin) := by
  refine ⟨?_, ?_, fun hnil => ?_⟩
  · rw [afterCall, unshift_callQueue]
    simp [finish, hq]
  · rw [afterCall, (unshift_frame _ t).2]
    simp [finish]
  · have hlast : (s.callQueue t).tail = [] := by rw [hq, tail_cons, hnil]
    simpa [afterCall, unshift, setQueue, finish, hlast, monitorNotifyAll] using
      hnodup.not_mem_erase

/-- The first `k` of the calls that the thread had in `v` are completed in `v'`. -/
structure Progress (v : SchedulerVm) (t : ℕ) (result : ℕ → ℕ) (k : ℕ) (v' : SchedulerVm) :
    Prop where
  inv : QueuesInv v'.scheduler
  queued : v'.scheduler.callQueue t = (v.scheduler.callQueue t).drop k
  finished : v'.scheduler.finished t =
    v.scheduler.finished t ++ ((v.scheduler.callQueue t).take k).map PendingCall.record
  completed : ∀ c ∈ (v.scheduler.callQueue t).take k, Completed v' c (result c.record)
  listed : t ∈ v'.scheduler.roundRobin ↔ v'.scheduler.callQueue t ≠ []

namespace Progress

variable {v v₁ v₂ : SchedulerVm} {t k : ℕ} {result : ℕ → ℕ}

theorem record_finished (h : Progress v t result k v₁) {c : PendingCall}
    (hc : c ∈ (v.scheduler.callQueue t).take k) : c.record ∈ v₁.scheduler.finished t := by
  rw [h.finished]
  exact mem_append_right _ (mem_map_of_mem hc)

/-- A step runs no call of the thread, or completes its next one. -/
theorem step (h : Progress v t result k v₁) {poll : ℕ → Poll} {q : List PendingCall}
    (hpoll : ∀ c ∈ q, ∃ handle, (poll c.record).future = .ready (result c.record) handle)
    (hne : v₁.scheduler.callQueue t ≠ []) (hhead : ∀ c ∈ (v₁.scheduler.callQueue t).head?, c ∈ q)
    (he : SchedulerVm.StepEffect poll v₁ v₂) :
    Progress v t result k v₂ ∨ Progress v t result (k + 1) v₂ := by
  have hinv := he.queues h.inv
  cases he with
  | idle hrot =>
    left
    refine ⟨hinv, hrot.callQueue ▸ h.queued, hrot.finished ▸ h.finished, fun c hc => ?_, ?_⟩
    · exact (h.completed c hc).append (l := []) (by simp [hrot.records])
    · show t ∈ _ ↔ _
      rw [hrot.listed t hne, hrot.callQueue]
      exact h.listed
  | @called s₁ s₂ u c rest _ hrot hq hcall hafter =>
    have hrecords := callInterpreter_records hcall
    rw [hrot.records] at hrecords
    have hspec := callInterpreter_spec hrot.inv hq hcall
    have hkeep : ∀ d ∈ (v.scheduler.callQueue t).take k, Completed v₂ d (result d.record) := by
      intro d hd
      have hother : d.record ≠ c.record := by
        have hfin := h.record_finished hd
        rw [← hrot.finished] at hfin
        exact Ne.symm (hrot.inv.finished_not_queued hfin (by rw [hq]; exact mem_cons_self))
      exact ((h.completed d hd).append hrecords).afterCall hother hafter
    by_cases hu : t = u
    · subst hu
      right
      have hq₁ : (v.scheduler.callQueue t).drop k = c :: rest := by
        rw [← h.queued, ← hrot.callQueue, hq]
      have htake : (v.scheduler.callQueue t).take (k + 1) =
          (v.scheduler.callQueue t).take k ++ [c] := by
        rw [take_add, hq₁]
        rfl
      obtain ⟨handle, hready⟩ := hpoll c (hhead c (by rw [← hrot.callQueue, hq]; rfl))
      rw [hready] at hafter
      obtain ⟨rec, hrec, -⟩ := h.inv.more t c (by rw [h.queued, hq₁]; exact mem_cons_self)
      have hrec₂ : s₂.records[c.record]? = some rec := by
        rw [hrecords, List.getElem?_append_left (List.getElem?_eq_some_iff.mp hrec).1, hrec]
      have hdone := Completed.of_afterCall (v := { v₁ with scheduler := s₂ }) hrec₂ hafter
      have hsched : ∃ handle', v₂.scheduler =
          s₂.afterCall t c (.ready (result c.record) handle') := by
        obtain ⟨-, ⟨-, rfl⟩ | ⟨-, rfl⟩⟩ := SchedulerVm.afterCall_ready hafter
        · exact ⟨_, rfl⟩
        · exact ⟨_, rfl⟩
      obtain ⟨handle', hs⟩ := hsched
      obtain ⟨hqueue, hfin, hgone⟩ := afterCall_ready (c := c) hspec.1.nodup hspec.2.1
        (result c.record) handle'
      rw [← hs] at hqueue hfin hgone
      refine ⟨hinv, ?_, ?_, fun d hd => ?_, ?_⟩
      · rw [hqueue, ← tail_drop, hq₁, tail_cons]
      · rw [hfin, hspec.2.2.1, hrot.finished, h.finished, htake]
        simp
      · rw [htake, mem_append, mem_singleton] at hd
        rcases hd with hd | rfl
        · exact hkeep d hd
        · exact hdone
      · refine ⟨fun hin hnil => hgone (hqueue ▸ hnil) hin, fun hrest => hinv.agree.listed hrest⟩
    · left
      have hin : t ∈ s₁.roundRobin := by
        rw [hrot.listed t hne]
        exact h.listed.mpr hne
      obtain ⟨f', hs⟩ := SchedulerVm.afterCall_scheduler hafter
      obtain ⟨hqueue, hfin⟩ := afterCall_others (s := s₂) (c := c) hu f'
      have hsame : v₂.scheduler.callQueue t = v₁.scheduler.callQueue t := by
        rw [hs, hqueue, callInterpreter_others hcall hu hin, hrot.callQueue]
      refine ⟨hinv, hsame.trans h.queued, ?_, hkeep, ?_⟩
      · rw [hs, hfin, hspec.2.2.1, hrot.finished, h.finished]
      · rw [hsame]
        exact ⟨fun _ => hne, fun _ => hinv.agree.listed (hsame ▸ hne)⟩

end Progress

section

variable {v v' : SchedulerVm} {t r : ℕ} {result : ℕ → ℕ}

theorem upTo_eq {q : List PendingCall} (hr : ∃ c ∈ q, c.record = r) :
    upTo r q = q.take ((q.findIdx fun c => c.record = r) + 1) ∧
      (q.findIdx fun c => c.record = r) < q.length := by
  have hany : (q.any fun c => c.record = r) = true := by simpa using hr
  refine ⟨by rw [upTo, if_pos hany], ?_⟩
  rw [findIdx_lt_length]
  simpa using hr

/-- Running `rr_scheduler_step` until the record is done completes the calls up to it. -/
theorem stepping_completedUpTo (hi : QueuesInv v.scheduler)
    (hr : ∃ c ∈ v.scheduler.callQueue t, c.record = r)
    (hruns : Runs schedulerVmStep (Stepping (upTo r (v.scheduler.callQueue t)) r result) v v')
    (hdone : ∃ rec, v'.scheduler.records[r]? = some rec ∧ rec.status = .done) :
    CompletedUpTo v v' t r result := by
  obtain ⟨hup, hlt⟩ := upTo_eq hr
  set q := v.scheduler.callQueue t with hq
  set i := q.findIdx fun c => c.record = r with hidx
  have hri : q[i].record = r := by simpa using findIdx_getElem (w := hlt)
  -- the invariant: some number of the calls up to the record is completed
  have hprogress : ∃ k ≤ i + 1, Progress v t result k v' := by
    apply hruns.invariant (fun u => ∃ k ≤ i + 1, Progress v t result k u)
    · refine ⟨0, by omega, hi, by simp, by simp, by simp, ?_⟩
      have hne : v.scheduler.callQueue t ≠ [] :=
        ne_nil_of_length_pos (Nat.zero_lt_of_lt hlt)
      exact ⟨fun _ => hne, fun _ => hi.agree.listed hne⟩
    · rintro u e w ⟨k, hk, h⟩ hok hstep
      cases e with
      | step clock poll =>
        obtain ⟨hpoll, hmore⟩ := hok
        have hki : k ≤ i := by
          by_contra hgt
          have hmem : q[i] ∈ q.take k := mem_take_iff_getElem.mpr ⟨i, by omega, rfl⟩
          obtain ⟨rec, hrec, hst, -⟩ := (h.completed _ hmem).record
          exact hmore rec (hri ▸ hrec) hst
        have hqueue : u.scheduler.callQueue t = q[k] :: q.drop (k + 1) := by
          rw [h.queued, ← hq, drop_eq_getElem_cons (by omega)]
        simp only [schedulerVmStep, Option.ite_none_left_eq_some, Option.map_eq_some_iff] at hstep
        obtain ⟨-, ⟨st, w'⟩, hstep, rfl⟩ := hstep
        have heffect := SchedulerVm.step_effect h.inv.agree hstep
        have hhead : ∀ c ∈ (u.scheduler.callQueue t).head?, c ∈ upTo r q := by
          intro c hc
          rw [hqueue, head?_cons, Option.mem_some_iff] at hc
          rw [hup, ← hc]
          exact mem_take_iff_getElem.mpr ⟨k, by omega, rfl⟩
        rcases h.step hpoll (by rw [hqueue]; exact cons_ne_nil _ _) hhead heffect with h' | h'
        · exact ⟨k, hk, h'⟩
        · exact ⟨k + 1, by omega, h'⟩
      | _ => exact hok.elim
  obtain ⟨k, hk, h⟩ := hprogress
  have hall : k = i + 1 := by
    by_contra hne
    have hmem : q[i] ∈ v'.scheduler.callQueue t := by
      rw [h.queued, ← hq, mem_drop_iff_getElem]
      exact ⟨i - k, by omega, by congr 1; omega⟩
    obtain ⟨rec, hrec, hmore⟩ := h.inv.more t _ hmem
    obtain ⟨rec', hrec', hst⟩ := hdone
    rw [hri, hrec'] at hrec
    rw [some.inj hrec, hmore] at hst
    cases hst
  subst hall
  have hlen : (upTo r q).length = i + 1 := by
    rw [hup, length_take]
    omega
  refine ⟨?_, ?_, ?_, fun _ => h.listed, fun hnil => ?_⟩
  · rw [← hq, hup]
    exact h.finished
  · rw [← hq, hlen]
    exact h.queued
  · rw [← hq, hup]
    exact h.completed
  · rw [← hq] at hnil
    rw [hnil] at hlen
    cases hlen

/-! ### Executing immediately -/

variable {polls : List Poll}

theorem executeLoop_nil {s : Scheduler} (h : s.callQueue t = []) :
    Scheduler.executeLoop t r polls s = some (.done, s) := by
  cases polls with
  | nil | cons p polls => rw [Scheduler.executeLoop, h]

variable {st : SchedulerStatus}

/-- At least the first call of the queue is run and deleted. -/
theorem executeLoop_suffix {s s' : Scheduler} {c : PendingCall} {rest : List PendingCall}
    (hi : QueuesInv s)
    (hq : s.callQueue t = c :: rest) (hpolls : ∀ p ∈ polls, ∃ x k, p.future = .ready x k)
    (h : Scheduler.executeLoop t r polls s = some (st, s')) : s'.callQueue t <:+ rest := by
  induction polls generalizing s c rest with
  | nil =>
    rw [Scheduler.executeLoop, hq] at h
    cases h
  | cons p polls ih =>
    rw [Scheduler.executeLoop, hq] at h
    dsimp only at h
    split at h
    · cases h
    rename_i s₁ hcall
    have hspec := callInterpreter_spec hi.agree hq hcall
    have hi₁ := (hi.callInterpreter hq hcall).forced hspec.2.1
    obtain ⟨x, k, hready⟩ := hpolls p mem_cons_self
    rw [hready] at h
    have hqueue : ((s₁.setQueue t (s₁.callQueue t).tail).finish t c).callQueue t = rest := by
      simp [Scheduler.finish, Scheduler.setQueue, hspec.2.1]
    dsimp only at h
    split at h
    · cases h
      exact ⟨[], hqueue⟩
    · cases hrest : rest with
      | nil =>
        rw [hrest] at hqueue
        rw [executeLoop_nil hqueue] at h
        cases h
        exact ⟨[], hqueue⟩
      | cons d rest' =>
        have hsuffix := ih hi₁ (hqueue.trans hrest)
          (fun p' hp' => hpolls p' (mem_cons_of_mem _ hp')) h
        exact hsuffix.trans (suffix_cons _ _)

/-- `rr_scheduler_execute_immediately` leaves what stepping leaves exactly when the thread has no
call to run. -/
theorem executeImmediately_completedUpTo_iff {rec : ExecutionRecord} (hi : QueuesInv v.scheduler)
    (hrec : v.scheduler.records[r]? = some rec) (hpolls : ∀ p ∈ polls, ∃ x k, p.future = .ready x k)
    (hexec : v.executeImmediately r polls = some (st, v')) :
    CompletedUpTo v v' rec.thread r result ↔ v.scheduler.callQueue rec.thread = [] := by
  simp only [SchedulerVm.executeImmediately, Option.ite_none_left_eq_some,
    Option.map_eq_some_iff] at hexec
  obtain ⟨-, ⟨st', s'⟩, hexec, he⟩ := hexec
  cases he
  obtain ⟨l, hl⟩ := executeImmediately_records hexec
  simp only [Scheduler.executeImmediately, hrec] at hexec
  constructor
  · intro h
    cases hq : v.scheduler.callQueue rec.thread with
    | nil => rfl
    | cons c rest =>
      exfalso
      rw [if_pos (hi.agree.listed (by rw [hq]; exact cons_ne_nil _ _))] at hexec
      have hsuffix := executeLoop_suffix hi hq hpolls hexec
      cases hup : upTo r (v.scheduler.callQueue rec.thread) with
      | nil =>
        have hqueued := h.queued
        rw [hup, hq] at hqueued
        have hlen := hsuffix.length_le
        rw [show s'.callQueue rec.thread = c :: rest from hqueued] at hlen
        rw [length_cons] at hlen
        omega
      | cons d ds =>
        have hd : d ∈ v.scheduler.callQueue rec.thread := by
          have hsub : upTo r (v.scheduler.callQueue rec.thread) ⊆
              v.scheduler.callQueue rec.thread := by
            unfold upTo
            split
            · exact take_subset _ _
            · exact nil_subset _
          exact hsub (hup ▸ mem_cons_self)
        obtain ⟨rec₀, hrec₀, hmore⟩ := hi.more _ d hd
        obtain ⟨rec₁, hrec₁, hdone, -⟩ := (h.completed d (hup ▸ mem_cons_self)).record
        have hsame : s'.records[d.record]? = some rec₀ := by
          rw [hl, List.getElem?_append_left (List.getElem?_eq_some_iff.mp hrec₀).1, hrec₀]
        rw [some.inj (hrec₁.symm.trans hsame), hmore] at hdone
        cases hdone
  · intro hnil
    have hsame : s' = v.scheduler := by
      split at hexec
      · rw [executeLoop_nil hnil] at hexec
        exact (Prod.mk.inj (some.inj hexec)).2.symm
      · exact (Prod.mk.inj (some.inj hexec)).2.symm
    subst hsame
    have hup : upTo r (v.scheduler.callQueue rec.thread) = [] := by simp [upTo, hnil]
    refine ⟨?_, ?_, ?_, fun hne => absurd hup hne, fun _ => Iff.rfl⟩
    iterate 3 simp [hup]

end

/-- For a queued record, stepping until it is done completes the calls up to it.
`rr_scheduler_execute_immediately` leaves what that leaves exactly when the thread of the record has
no queued call. -/
theorem executeImmediately_agrees_iff {f : ThreadFlags} {v : SchedulerVm} {r : ℕ}
    {rec : ExecutionRecord} (hv : Reachable schedulerVmStep (SchedulerVm.init f) v)
    (hrec : v.scheduler.records[r]? = some rec) (result : ℕ → ℕ) :
    (∀ v', (∃ c ∈ v.scheduler.callQueue rec.thread, c.record = r) →
      Runs schedulerVmStep (Stepping (upTo r (v.scheduler.callQueue rec.thread)) r result) v v' →
      (∃ rec', v'.scheduler.records[r]? = some rec' ∧ rec'.status = .done) →
      CompletedUpTo v v' rec.thread r result) ∧
    ∀ polls st v', (∀ p ∈ polls, ∃ x k, p.future = .ready x k) →
      v.executeImmediately r polls = some (st, v') →
      (CompletedUpTo v v' rec.thread r result ↔ v.scheduler.callQueue rec.thread = []) := by
  have hi := schedulerVm_queues hv
  constructor
  · intro v' hqueued hruns hdone
    exact stepping_completedUpTo hi hqueued hruns hdone
  · intro polls st v' hpolls hexec
    exact executeImmediately_completedUpTo_iff hi hrec hpolls hexec

/-- Two calls of a thread, the first of which returns an object, are stepped to the end. -/
theorem executeImmediately_agrees_twoCalls :
    ∃ v v', Reachable schedulerVmStep (SchedulerVm.init idleFlags) v ∧
      (v.scheduler.callQueue 0).map PendingCall.record = [0, 1] ∧
      v'.freedArgs = [1, 0] ∧ CompletedUpTo v v' 0 1 (fun r => 7 + r) := by
  have hsteps : ∃ v v₁ v₂,
      run schedulerVmStep (SchedulerVm.init idleFlags) [.run ⟨0, true⟩, .run ⟨0, false⟩] = some v ∧
      schedulerVmStep v (.step (fun _ => 0) fun r => ⟨[], .ready (7 + r) 0⟩) = some v₁ ∧
      schedulerVmStep v₁ (.step (fun _ => 0) fun r => ⟨[], .ready (7 + r) 0⟩) = some v₂ ∧
      v.scheduler.records[1]? = some ⟨.more, 0, 0, 0⟩ ∧
      v₁.scheduler.records[1]? = some ⟨.more, 0, 0, 0⟩ ∧
      v₂.scheduler.records[1]? = some ⟨.done, 8, -1, 0⟩ ∧
      v.scheduler.callQueue 0 = [⟨0, true, false⟩, ⟨1, false, false⟩] ∧ v₂.freedArgs = [1, 0] :=
    ⟨_, _, _, rfl, rfl, rfl, rfl, rfl, rfl, rfl, rfl⟩
  obtain ⟨v, v₁, v₂, hrun, h₁, h₂, hrec, hrec₁, hrec₂, hq, hargs⟩ := hsteps
  have hok : ∀ u : SchedulerVm, u.scheduler.records[1]? = some ⟨.more, 0, 0, 0⟩ →
      Stepping (upTo 1 (v.scheduler.callQueue 0)) 1 (fun r => 7 + r) u
        (.step (fun _ => 0) fun r => ⟨[], .ready (7 + r) 0⟩) := by
    intro u hu
    refine ⟨fun c _ => ⟨0, rfl⟩, ?_⟩
    rw [hu]
    rintro rec ⟨⟩
    simp
  have hruns := (Runs.refl.tail (hok v hrec) h₁).tail (hok v₁ hrec₁) h₂
  refine ⟨v, v₂, reachable_of_run hrun, by simp [hq], hargs, ?_⟩
  refine (executeImmediately_agrees_iff (reachable_of_run hrun) hrec _).1 v₂ ?_ hruns ⟨_, hrec₂, rfl⟩
  rw [hq]
  exact ⟨⟨1, false, false⟩, by simp, rfl⟩

/-- The only call of a thread is run by stepping and by executing immediately: the second leaves
its record unfinished, its arguments allocated and its thread listed. With two calls queued,
executing the second one immediately returns when only the first has run. -/
theorem executeImmediately_disagrees :
    (∃ v v₁ v₂, Reachable schedulerVmStep (SchedulerVm.init idleFlags) v ∧
      v.executeImmediately 0 [⟨[], .ready 7 0⟩] = some (.done, v₁) ∧
      v.step (fun _ => 0) (fun _ => ⟨[], .ready 7 0⟩) = some (.done, v₂) ∧
      v₁.scheduler.records = [⟨.more, 0, 0, 0⟩] ∧ v₂.scheduler.records = [⟨.done, 7, 0, 0⟩] ∧
      v₁.freedArgs = [] ∧ v₂.freedArgs = [0] ∧
      v₁.scheduler.roundRobin = [0] ∧ v₂.scheduler.roundRobin = []) ∧
    ∃ v v₁, Reachable schedulerVmStep (SchedulerVm.init idleFlags) v ∧
      v.executeImmediately 1 [⟨[], .ready 7 0⟩] = some (.done, v₁) ∧
      v₁.scheduler.finished 0 = [0] := by
  constructor
  · exact ⟨_, _, _, reachable_of_run (w := [.run ⟨0, true⟩]) rfl, rfl, rfl, rfl, rfl, rfl, rfl, rfl,
      rfl⟩
  · exact ⟨_, _, reachable_of_run (w := [.run ⟨0, true⟩, .run ⟨0, false⟩]) rfl, rfl, rfl⟩

end TraceJvm
