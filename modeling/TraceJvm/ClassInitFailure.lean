import TraceJvm.ClassInitSafety

/-! What a class that failed to link or to initialise answers to later requests. -/
namespace TraceJvm

open Transition

variable {H : Hierarchy} {s s' : Vm} {r : ClassRef}

def RequestsFail (H : Hierarchy) (s : Vm) (t : ℕ) (r : ClassRef) : Prop :=
  ((linkClass H t s r).1 ≠ 0 ∧ (linkClass H t s r).2.currentException t ≠ none) ∧
    ∀ rest m, ∃ res, (enterInitializeClass H s t r rest m).returned = some (t, r, res) ∧
      res ≠ 0 ∧ (enterInitializeClass H s t r rest m).currentException t ≠ none

/-- Both requests succeed at once: the result is zero and nothing but the call stack changes. -/
def RequestsSucceed (H : Hierarchy) (s : Vm) (t : ℕ) (r : ClassRef) : Prop :=
  linkClass H t s r = (0, s) ∧ ∀ rest m, enterInitializeClass H s t r rest m = s.ret t rest r 0

theorem RequestsSucceed.not_fail {t : ℕ} (h : RequestsSucceed H s t r) :
    ¬ RequestsFail H s t r := by
  intro hf
  have h1 := hf.1.1
  rw [h.1] at h1
  exact h1 rfl

theorem InitInv.requestsSucceed {g : Prop} {t : ℕ} (hinv : InitInv H g s) (h : FailureSettled s)
    (hr : s.Failed r) : RequestsSucceed H s t r := by
  obtain ⟨hne, -, hbase⟩ := h r hr
  refine ⟨linkClass_of_ne_loaded hne, fun rest m => ?_⟩
  unfold enterInitializeClass
  split
  · rfl
  · rename_i hk
    have hfinal : s.state r = .initialized ∨ s.state r = .linkageError := by
      by_cases hi : s.state r = .initialized
      · exact .inl hi
      · exact (hbase (hinv.dims_eq_zero hk hi)).symm
    rw [if_pos hfinal]

theorem reachable_failureSettled (h : Reachable (initStep H) (Vm.initial H) s) :
    InitInv H False s ∧ FailureSettled s := by
  refine h.invariant (fun s => InitInv H False s ∧ FailureSettled s) ⟨initial_inv H False, ?_⟩ ?_
  · intro r hr
    simp [Vm.Failed, Vm.initial] at hr
  · intro v e w hv _ hstep
    have hg := initStep_good hv.1 (fun hF => hF.elim) hstep
    exact ⟨hg.inv, (hg.failures hv.2).1⟩

theorem failed_of_reachable (h : Reachable (initStep H) (Vm.initial H) s) (hr : s.Failed r)
    (hlater : Reachable (initStep H) s s') : s'.Failed r := by
  have hall : (InitInv H False s' ∧ FailureSettled s') ∧ s'.Failed r := by
    refine hlater.invariant (fun s => (InitInv H False s ∧ FailureSettled s) ∧ s.Failed r)
      ⟨reachable_failureSettled h, hr⟩ ?_
    intro v e w hv _ hstep
    have hg := initStep_good hv.1.1 (fun hF => hF.elim) hstep
    have hk := hg.failures hv.1.2
    exact ⟨⟨hg.inv, hk.1⟩, hk.2 r hv.2⟩
  exact hall.2

/-- Once linking, verification or `<clinit>` of a class has failed, every later `link_class` and
`initialize_class` on it succeeds, on every thread, and leaves no exception. -/
theorem failed_requests_succeed (H : Hierarchy) {s s' : Vm} {r : ClassRef}
    (h : Reachable (initStep H) (Vm.initial H) s) (hr : s.Failed r)
    (hlater : Reachable (initStep H) s s') (t : ℕ) :
    RequestsSucceed H s' t r ∧ ¬ RequestsFail H s' t r := by
  obtain ⟨hinv, hs⟩ := reachable_failureSettled (h.trans hlater)
  have hok := hinv.requestsSucceed (t := t) hs (failed_of_reachable h hr hlater)
  exact ⟨hok, hok.not_fail⟩

/-- The classes of `threeClasses` with a method in class 1 that the analyser rejects. -/
def rejectedClass : Hierarchy := { threeClasses with verifies := fun c => c ≠ 1 }

/-- Class 2 throws from its `<clinit>`; thread 1 asks for it after thread 0 has caught the error. -/
theorem failed_requests_succeed_clinit :
    ∃ s s', Reachable (initStep threeClasses) (Vm.initial threeClasses) s ∧ s.Failed ⟨2, 0⟩ ∧
      Reachable (initStep threeClasses) s s' ∧ s'.currentException 0 = none ∧
      RequestsSucceed threeClasses s' 1 ⟨2, 0⟩ ∧ ¬ RequestsFail threeClasses s' 1 ⟨2, 0⟩ := by
  have hrun : Reachable (initStep threeClasses) (Vm.initial threeClasses) _ := reachable_of_run
    (w := [.call 0 ⟨2, 0⟩, .poll 0 ⟨false, false⟩, .poll 0 ⟨false, false⟩, .poll 0 ⟨false, false⟩,
      .poll 0 ⟨false, false⟩, .clinitReturns 0 none false, .poll 0 ⟨false, false⟩,
      .clinitReturns 0 (some (.thrown false 7)) false]) rfl
  refine ⟨_, _, hrun, .inr rfl, Runs.refl.tail (a := .catchException 0) trivial rfl, rfl, ?_⟩
  exact failed_requests_succeed threeClasses hrun (.inr rfl)
    (Runs.refl.tail (a := .catchException 0) trivial rfl) 1

/-- The first `link_class` on class 1 raises a `VerifyError`, the second one succeeds. -/
theorem link_class_succeeds_after_verify_error :
    ¬ ∀ (H : Hierarchy) (s s' : Vm) (r : ClassRef),
      Reachable (initStep H) (Vm.initial H) s → s.Failed r → Reachable (initStep H) s s' →
        ∀ t, RequestsFail H s' t r := by
  intro hall
  have hrun : Reachable (initStep rejectedClass) (Vm.initial rejectedClass) _ := reachable_of_run
    (w := [.link 0 ⟨1, 0⟩]) rfl
  have hfail := (hall rejectedClass _ _ ⟨1, 0⟩ hrun (.inl rfl) .refl 0).1.1
  exact hfail (by decide)

end TraceJvm
