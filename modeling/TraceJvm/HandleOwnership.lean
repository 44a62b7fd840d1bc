import TraceJvm.SchedulerVm

/-! The owners of the handles that the host and the execution records hold. -/
namespace TraceJvm

open Transition List Option

/-- Every handle that its owner has not dropped denotes its object, no two of them have the same
index, and a record has dropped only a handle that was made for it. -/
structure HandlesOwned (v : SchedulerVm) : Prop where
  denotes : ∀ h ∈ v.held, v.jsHandles[h.index]? = some (some h.object)
  distinct : (v.held.map HeldHandle.index).Nodup
  ownDrops : ∀ d ∈ v.dropped, d ∈ v.made

/-- Records are freed only after `rr_scheduler_step` has completed their calls, and the scheduler is
shut down only when no call is queued. -/
def FreesCompleted (v : SchedulerVm) : SchedulerVmEvent → Prop
  | .freeExecutionRecord r => ∀ rec ∈ v.scheduler.records[r]?, rec.status = .done
  | .uninit => v.pendingCalls = []
  | _ => True

/-- The `js_handle` of a completed record is its own. -/
def RecordsHold (v : SchedulerVm) : Prop :=
  ∀ r rec, v.scheduler.records[r]? = some rec → rec.status = .done → r ∉ v.freedRecords →
    rec.jsHandle = -1 ∨ ∃ i o : ℕ, rec.jsHandle = (i : ℤ) ∧ ⟨.record r, i, o⟩ ∈ v.held ∧
      (r, rec.jsHandle) ∈ v.made

structure HandleInv (v : SchedulerVm) : Prop where
  owned : HandlesOwned v
  records : RecordsHold v

namespace HandlesOwned

variable {v v' : SchedulerVm}

theorem put (h : HandlesOwned v) (owner : HandleOwner) (object : ℕ)
    (htable : v'.jsHandles = (SlotTable.put v.jsHandles object).1)
    (hheld : v'.held = ⟨owner, (SlotTable.put v.jsHandles object).2, object⟩ :: v.held)
    (hdrop : v'.dropped = v.dropped) (hmade : v.made ⊆ v'.made) : HandlesOwned v' where
  denotes k hk := by
    rw [hheld, mem_cons] at hk
    rw [htable]
    rcases hk with rfl | hk
    · exact SlotTable.put_self ..
    · exact SlotTable.put_occupied (h.denotes k hk) object
  distinct := by
    rw [hheld, map_cons, nodup_cons]
    refine ⟨fun hmem => ?_, h.distinct⟩
    obtain ⟨k, hk, hindex⟩ := mem_map.mp hmem
    have hocc := h.denotes k hk
    rw [hindex] at hocc
    exact SlotTable.put_free _ _ _ hocc
  ownDrops d hd := hmade (h.ownDrops d (hdrop ▸ hd))

theorem drop (h : HandlesOwned v) {k : HeldHandle} (hk : k ∈ v.held)
    (htable : v'.jsHandles = SlotTable.drop v.jsHandles k.index) (hsub : v'.held.Sublist v.held)
    (hgone : k ∉ v'.held) (hdrops : ∀ d ∈ v'.dropped, d ∈ v'.made) : HandlesOwned v' where
  denotes j hj := by
    have hold := hsub.subset hj
    have hne : k.index ≠ j.index := by
      intro he
      apply hgone
      rwa [inj_on_of_nodup_map h.distinct hk hold he]
    rw [htable, SlotTable.drop_of_ne hne]
    exact h.denotes j hold
  distinct := h.distinct.sublist (hsub.map _)
  ownDrops := hdrops

end HandlesOwned

namespace RecordsHold

variable {v v' : SchedulerVm}

theorem mono (h : RecordsHold v)
    (hrec : ∀ (r : ℕ) (rec : ExecutionRecord), v'.scheduler.records[r]? = some rec →
      rec.status = .done → v.scheduler.records[r]? = some rec)
    (hfreed : v.freedRecords ⊆ v'.freedRecords)
    (hheld : ∀ k ∈ v.held, ∀ r ∉ v'.freedRecords, k.owner = .record r → k ∈ v'.held)
    (hmade : v.made ⊆ v'.made) : RecordsHold v' := by
  intro r rec hr hdone hlive
  rcases h r rec (hrec r rec hr hdone) hdone fun hin => hlive (hfreed hin) with
    hnone | ⟨i, o, hi, hmem, hm⟩
  · exact .inl hnone
  · exact .inr ⟨i, o, hi, hheld _ hmem r hlive rfl, hmade hm⟩

theorem append (h : RecordsHold v) {l : List CallRequest} {s : Scheduler}
    (hs : s.records = v.scheduler.records ++ l.map fun c => ⟨.more, 0, 0, c.thread⟩) :
    RecordsHold { v with scheduler := s } := by
  apply h.mono
  · intro r rec hr hdone
    rw [show ({ v with scheduler := s } : SchedulerVm).scheduler.records = s.records from rfl, hs,
      getElem?_append] at hr
    split at hr
    · exact hr
    · simp only [getElem?_map, map_eq_some_iff] at hr
      obtain ⟨c, -, rfl⟩ := hr
      cases hdone
  · exact List.Subset.refl _
  · exact fun k hk _ _ _ => hk
  · exact List.Subset.refl _

end RecordsHold

namespace HandleInv

variable {v v' : SchedulerVm}

theorem init (f : ThreadFlags) : HandleInv (.init f) where
  owned := ⟨fun _ hk => (not_mem_nil hk).elim, nodup_nil,
    fun _ hd => (not_mem_nil hd).elim⟩
  records _ _ hr := by simp [SchedulerVm.init, Scheduler.init] at hr

theorem append (h : HandleInv v) {l : List CallRequest} {s : Scheduler}
    (hs : s.records = v.scheduler.records ++ l.map fun c => ⟨.more, 0, 0, c.thread⟩) :
    HandleInv { v with scheduler := s } :=
  ⟨⟨h.owned.denotes, h.owned.distinct, h.owned.ownDrops⟩, h.records.append hs⟩

theorem afterCall_getElem {s : Scheduler} {t r result : ℕ} {handle : ℤ} {c : PendingCall}
    {rec : ExecutionRecord}
    (hr : (s.afterCall t c (.ready result handle)).records[r]? = some rec) :
    (r ≠ c.record ∧ s.records[r]? = some rec) ∨
      r = c.record ∧ rec.jsHandle = if c.returnsReference && result ≠ 0 then handle else -1 := by
  rw [Scheduler.afterCall, (Scheduler.unshift_frame _ t).1] at hr
  by_cases hc : r = c.record
  · right
    simp only [Scheduler.finish, hc, getElem?_modify_eq] at hr
    obtain ⟨rec₀, -, rfl⟩ := map_eq_some_iff.mp hr
    exact ⟨hc, rfl⟩
  · left
    exact ⟨hc, by simpa [Scheduler.finish, Ne.symm hc] using hr⟩

theorem afterCall (h : HandleInv v) {t : ℕ} {c : PendingCall} {f : CallFuture}
    (hcall : v.afterCall t c f = some v') : HandleInv v' := by
  cases f with
  | notReady w =>
    cases hcall
    exact ⟨⟨h.owned.denotes, h.owned.distinct, h.owned.ownDrops⟩, h.records⟩
  | ready result handle =>
    obtain ⟨-, ⟨href, rfl⟩ | ⟨href, rfl⟩⟩ := SchedulerVm.afterCall_ready hcall
    · refine ⟨h.owned.put _ result rfl rfl rfl (subset_cons_self _ _), ?_⟩
      intro r rec hr hdone hlive
      rcases afterCall_getElem hr with ⟨hne, hold⟩ | ⟨rfl, hhandle⟩
      · rcases h.records r rec hold hdone hlive with hnone | ⟨i, o, hi, hmem, hm⟩
        · exact .inl hnone
        · exact .inr ⟨i, o, hi, mem_cons_of_mem _ hmem, mem_cons_of_mem _ hm⟩
      · rw [if_pos href] at hhandle
        rw [hhandle]
        exact .inr ⟨_, _, rfl, mem_cons_self, mem_cons_self⟩
    · refine ⟨⟨h.owned.denotes, h.owned.distinct, h.owned.ownDrops⟩, ?_⟩
      intro r rec hr hdone hlive
      rcases afterCall_getElem hr with ⟨hne, hold⟩ | ⟨rfl, hhandle⟩
      · exact h.records r rec hold hdone hlive
      · rw [if_neg (by rw [href]; exact Bool.false_ne_true)] at hhandle
        exact .inl hhandle

theorem freeExecutionRecord (h : HandleInv v) {r : ℕ}
    (hok : ∀ rec ∈ v.scheduler.records[r]?, rec.status = .done)
    (hfree : v.freeExecutionRecord r = some v') : HandleInv v' := by
  unfold SchedulerVm.freeExecutionRecord at hfree
  split at hfree
  · cases hfree
  rename_i rec hrec
  simp only [ite_none_left_eq_some] at hfree
  obtain ⟨hlive, hfree⟩ := hfree
  rcases h.records r rec hrec (hok rec hrec) hlive with hnone | ⟨i, o, hi, hmem, hm⟩
  · rw [if_neg (by simp [hnone])] at hfree
    cases hfree
    refine ⟨⟨h.owned.denotes, h.owned.distinct, h.owned.ownDrops⟩, ?_⟩
    exact h.records.mono (fun _ _ hr _ => hr) (subset_cons_self _ _)
      (fun k hk _ _ _ => hk) (List.Subset.refl _)
  · rw [if_pos (by omega), if_pos (by omega)] at hfree
    cases hfree
    constructor
    · apply h.owned.drop hmem
      · rw [hi, Int.toNat_natCast]
      · exact filter_sublist
      · simp
      · intro d hd
        rcases mem_cons.mp hd with rfl | hd
        · exact hm
        · exact h.owned.ownDrops d hd
    · refine h.records.mono (fun _ _ hr _ => hr) (subset_cons_self _ _) ?_ (List.Subset.refl _)
      intro k hk r' hr' howner
      have hne : r' ≠ r := fun he => hr' (he ▸ mem_cons_self)
      simp [hk, howner, hne]

theorem stepEffect (h : HandleInv v) {poll : ℕ → Poll} (he : SchedulerVm.StepEffect poll v v') :
    HandleInv v' := by
  cases he with
  | idle hrot => exact h.append (l := []) (by simp [hrot.records])
  | called hrot hq hcall hafter =>
    have hrec := Scheduler.callInterpreter_records hcall
    rw [hrot.records] at hrec
    exact (h.append hrec).afterCall hafter

/-- Every permitted transition keeps the handles with their owners. -/
theorem step (h : HandleInv v) (hi : QueuesInv v.scheduler) {e : SchedulerVmEvent}
    (hok : FreesCompleted v e) (hstep : schedulerVmStep v e = some v') : HandleInv v' := by
  cases e with
  | run c =>
    simp only [schedulerVmStep, SchedulerVm.schedulerOnly, ite_none_left_eq_some] at hstep
    obtain ⟨-, hstep⟩ := hstep
    cases hstep
    exact h.append (l := [c]) (Scheduler.run_records _ c)
  | wakeup t w | flags f =>
    simp only [schedulerVmStep, SchedulerVm.schedulerOnly, ite_none_left_eq_some] at hstep
    obtain ⟨-, hstep⟩ := hstep
    cases hstep
    exact h.append (l := []) (by simp)
  | step clock poll =>
    simp only [schedulerVmStep, ite_none_left_eq_some, map_eq_some_iff] at hstep
    obtain ⟨-, ⟨st, v₁⟩, hstep, rfl⟩ := hstep
    exact h.stepEffect (SchedulerVm.step_effect hi.agree hstep)
  | executeImmediately record polls =>
    simp only [schedulerVmStep, SchedulerVm.executeImmediately, ite_none_left_eq_some,
      map_eq_some_iff] at hstep
    obtain ⟨-, ⟨st, v₁⟩, ⟨-, ⟨st', s₁⟩, hexec, he⟩, rfl⟩ := hstep
    cases he
    obtain ⟨l, hl⟩ := Scheduler.executeImmediately_records hexec
    exact h.append hl
  | makeJsHandle n object =>
    simp only [schedulerVmStep, ite_none_left_eq_some] at hstep
    obtain ⟨-, hstep⟩ := hstep
    cases hstep
    refine ⟨h.owned.put (.host n) object rfl rfl rfl (List.Subset.refl _), ?_⟩
    exact h.records.mono (fun _ _ hr _ => hr) (List.Subset.refl _)
      (fun k hk _ _ _ => mem_cons_of_mem _ hk) (List.Subset.refl _)
  | dropJsHandle n index object =>
    simp only [schedulerVmStep, ite_none_right_eq_some] at hstep
    obtain ⟨hmem, hstep⟩ := hstep
    cases hstep
    have hnodup : v.held.Nodup := h.owned.distinct.of_map _
    refine ⟨h.owned.drop hmem rfl erase_sublist hnodup.not_mem_erase h.owned.ownDrops, ?_⟩
    refine h.records.mono (fun _ _ hr _ => hr) (List.Subset.refl _) ?_ (List.Subset.refl _)
    intro k hk r _ howner
    refine (mem_erase_of_ne ?_).mpr hk
    rintro rfl
    cases howner
  | freeExecutionRecord r =>
    simp only [schedulerVmStep, ite_none_left_eq_some] at hstep
    exact h.freeExecutionRecord hok hstep.2
  | uninit =>
    simp only [schedulerVmStep, SchedulerVm.uninit, ite_none_left_eq_some, map_eq_some_iff] at hstep
    obtain ⟨-, v₁, hfree, rfl⟩ := hstep
    have hnone : v.pendingCalls = [] := hok
    rw [hnone] at hfree
    cases hfree
    refine ⟨⟨h.owned.denotes, h.owned.distinct, h.owned.ownDrops⟩, ?_⟩
    intro r rec hr _ hlive
    exact absurd (List.mem_range.mpr (List.getElem?_eq_some_iff.mp hr).1) hlive

end HandleInv

/-- In every run that frees only completed records, every handle stays with its owner. -/
theorem handles_owned {f : ThreadFlags} {v : SchedulerVm}
    (h : Runs schedulerVmStep FreesCompleted (SchedulerVm.init f) v) : HandlesOwned v := by
  have hinv := h.invariant (fun v => QueuesInv v.scheduler ∧ HandleInv v) ⟨.init f, .init f⟩
    fun _ _ _ hv hok hstep =>
      ⟨schedulerVmStep_queues hv.1 hstep, hv.2.step hv.1 hok hstep⟩
  exact hinv.2.owned

/-- Two calls return an object each, and the first record is freed. -/
theorem handles_owned_secondRecord :
    ∃ v, Runs schedulerVmStep FreesCompleted (SchedulerVm.init idleFlags) v ∧
      v.held = [⟨.record 1, 1, 8⟩] ∧ v.dropped = [(0, 0)] ∧ HandlesOwned v := by
  have hsteps : ∃ v₁ v₂ v₃ v₄ v₅,
      schedulerVmStep (SchedulerVm.init idleFlags) (.run ⟨0, true⟩) = some v₁ ∧
      schedulerVmStep v₁ (.run ⟨0, true⟩) = some v₂ ∧
      schedulerVmStep v₂ (.step (fun _ => 0) fun r => ⟨[], .ready (7 + r) 0⟩) = some v₃ ∧
      schedulerVmStep v₃ (.step (fun _ => 0) fun r => ⟨[], .ready (7 + r) 0⟩) = some v₄ ∧
      schedulerVmStep v₄ (.freeExecutionRecord 0) = some v₅ ∧
      (∀ rec ∈ v₄.scheduler.records[0]?, rec.status = .done) ∧
      v₅.held = [⟨.record 1, 1, 8⟩] ∧ v₅.dropped = [(0, 0)] := by
    refine ⟨_, _, _, _, _, rfl, rfl, rfl, rfl, rfl, ?_, rfl, rfl⟩
    rintro rec ⟨⟩
    rfl
  obtain ⟨v₁, v₂, v₃, v₄, v₅, h₁, h₂, h₃, h₄, h₅, hdone, hheld, hdropped⟩ := hsteps
  have hrun : ∀ v c, FreesCompleted v (.run c) := fun _ _ => trivial
  have hstep : ∀ v k p, FreesCompleted v (.step k p) := fun _ _ _ => trivial
  have hfree : FreesCompleted v₄ (.freeExecutionRecord 0) := hdone
  have hruns : Runs schedulerVmStep FreesCompleted (SchedulerVm.init idleFlags) v₅ :=
    ((((Runs.refl.tail (hrun _ _) h₁).tail (hrun _ _) h₂).tail (hstep _ _ _) h₃).tail
      (hstep _ _ _) h₄).tail hfree h₅
  exact ⟨v₅, hruns, hheld, hdropped, handles_owned hruns⟩

/-- The record of a call that was executed immediately still has the `js_handle` 0 of `calloc`:
freeing it drops the first handle of the host. -/
theorem freeExecutionRecord_drops_hostHandle :
    ∃ v, Reachable schedulerVmStep (SchedulerVm.init idleFlags) v ∧
      ⟨.host 0, 0, 5⟩ ∈ v.held ∧ v.jsHandles[0]? = some none ∧ ¬ HandlesOwned v := by
  have hrun : ∃ v, run schedulerVmStep (SchedulerVm.init idleFlags)
      [.makeJsHandle 0 5, .run ⟨0, true⟩, .executeImmediately 0 [⟨[], .ready 7 0⟩],
        .freeExecutionRecord 0] = some v ∧
      v.held = [⟨.host 0, 0, 5⟩] ∧ v.jsHandles[0]? = some none := ⟨_, rfl, rfl, rfl⟩
  obtain ⟨v, hv, hheld, hslot⟩ := hrun
  have hmem : ⟨.host 0, 0, 5⟩ ∈ v.held := by simp [hheld]
  refine ⟨v, reachable_of_run hv, hmem, hslot, fun howned => ?_⟩
  have hdenotes := howned.denotes _ hmem
  rw [hslot] at hdenotes
  cases hdenotes

end TraceJvm
