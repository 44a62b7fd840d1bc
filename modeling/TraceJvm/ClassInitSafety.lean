import TraceJvm.ClassInitInvariant

/-! One transition of `initialize_class` keeps the ownership invariant, and what follows for
every interleaving. -/
namespace TraceJvm

open Transition Function

variable {H : Hierarchy} {g : Prop} {s s' : Vm} {t : ℕ} {a : Activation} {rest : List Activation}

/-- A transition from `s` to `s'` that keeps the invariant: the invariant of the new state, what
the transition showed, and the failures recorded before it. -/
structure InitGood (H : Hierarchy) (g : Prop) (s s' : Vm) : Prop where
  inv : InitInv H g s'
  observed : Observed H g s'
  failures : KeepsFailures s s'

theorem InitGood.after {s'' : Vm} (h : InitGood H g s' s'') (k : KeepsFailures s s') :
    InitGood H g s s'' :=
  ⟨h.inv, h.observed, k.trans h.failures⟩

theorem ret_good {v : ℤ} (h : InitInv H g s) (hc : s.calls t = a :: rest)
    (hown : a.phase.owns = false) (hans : v = 0 → a.cls.dims = 0 → s.Answered a.cls rest)
    (hfree : v = 0 → ∀ t', ∀ b ∈ s.calls t', b.cls = a.cls → b.phase = .clinit → t' = t) :
    InitGood H g s (s.ret t rest a.cls v) := by
  refine ⟨(h.pop hc hown hans).congr rfl rfl rfl rfl rfl rfl, ⟨?_, by simp [Vm.ret]⟩,
    .of_eq rfl rfl rfl⟩
  intro t' r hr t'' b hb hcls hph
  simp only [Vm.ret, Option.some.injEq, Prod.mk.injEq] at hr hb
  obtain ⟨rfl, rfl, hres⟩ := hr
  by_cases ht : t'' = t
  · exact ht
  · exact hfree hres t'' b (by simpa [ht] using hb) hcls hph

/-- The state just before the return at `done`, with the finished call no longer an owner. -/
def Vm.settle (s : Vm) (t : ℕ) (rest : List Activation) (r : ClassRef) (error : Bool)
    (why : Option Failure) : Vm :=
  let st := if error then ClassState.linkageError else .initialized
  let s := { s with
    state := update s.state r st
    linkageError := update s.linkageError r (s.currentException t)
    failure := if why = none then s.failure else update s.failure r why
    calls := update s.calls t (⟨r, .waiting, none⟩ :: rest) }
  s.setArrayStates r.base st

theorem done_eq_settle (s : Vm) (t : ℕ) (rest : List Activation) (r : ClassRef)
    (error : Bool) (why : Option Failure) :
    s.done t rest r error why =
      (s.settle t rest r error why).ret t rest r (if error then 1 else 0) := by
  simp [Vm.done, Vm.settle, Vm.ret, Vm.setArrayStates]

variable {error : Bool} {why : Option Failure}

theorem settle_retop (h : InitInv H g s)
    (hc : s.calls t = a :: rest) (hown : a.phase.owns) (hwhy : error → why ≠ none) :
    Retop s (s.settle t rest a.cls error why) t a ⟨a.cls, .waiting, none⟩ rest := by
  obtain ⟨hst, -, hd⟩ := h.owner t a (by simp [hc]) hown
  have hstate : (s.settle t rest a.cls error why).state a.cls =
      if error then ClassState.linkageError else .initialized := by
    simp [Vm.settle, Vm.setArrayStates, hd]
  exact
    { before := hc
      calls := rfl
      cls := rfl
      dims := hd
      free := h.ownFree hc hown
      unfinished := by simp [hst]
      sound := by simp [hst]
      arrayDims := rfl
      state := fun c hne => by simp [Vm.settle, Vm.setArrayStates, hne]
      otherBase := fun q hne => by
        have hq : q ≠ a.cls := by rintro rfl; exact hne rfl
        simp [Vm.settle, Vm.setArrayStates, hne, hq]
      arrays := fun q hq => by
        have hqa : q ≠ a.cls := by rintro rfl; exact hq hd
        simp only [Vm.settle, Vm.setArrayStates, update_of_ne hqa]
        split
        · exact .inr (by cases error <;> simp)
        · exact .inl rfl
      thread := fun _ _ => rfl
      starts := fun _ _ => rfl
      failure := fun q hq => by
        simp only [Vm.settle, Vm.setArrayStates]
        split <;> simp [hq]
      failureMono := fun hf => by
        simp only [Vm.settle, Vm.setArrayStates]
        split
        · exact hf
        · simpa using ‹¬ why = none›
      left := by rw [hstate]; split <;> simp
      owner := by simp [Phase.owns]
      owned := fun hi => by rw [hstate] at hi; split at hi <;> simp at hi
      broken := fun hb => by
        rw [hstate] at hb
        split at hb
        · have hw := hwhy ‹_›
          simp [Vm.settle, Vm.setArrayStates, hw]
        · cases hb
      pending := by simp [Phase.awaits]
      once := h.once a.cls
      settled := fun _ => .inr (by rw [hstate]; cases error <;> simp)
      result := rfl }

theorem done_good (h : InitInv H g s)
    (hc : s.calls t = a :: rest) (hown : a.phase.owns) (hwhy : error → why ≠ none) :
    InitGood H g s (s.done t rest a.cls error why) := by
  have hk := settle_retop h hc hown hwhy
  have hinv := h.retop hk (by simp [Phase.pastSuper])
  rw [done_eq_settle]
  refine InitGood.after ?_ hk.keepsFailures
  refine ret_good (a := ⟨a.cls, .waiting, none⟩) hinv (by simp [hk.calls]) rfl ?_ ?_
  · intro hres hd
    refine .inl ?_
    have herr : error = false := by
      cases error
      · rfl
      · simp at hres
    simp [Vm.settle, Vm.setArrayStates, hk.dims, herr]
  · intro _ t' b hb hcls hph
    by_contra ht
    rw [hk.calls, update_of_ne ht] at hb
    exact hk.free.1 t' ht b hb (by simp [hph, Phase.owns]) hcls

/-- The owner of a class moves on without giving it up. -/
theorem stay_retop {p : Phase} {n : ℕ} (h : InitInv H g s) (hc : s.calls t = a :: rest)
    (hown : a.phase.owns) (hph : p.owns) (hn : n ≤ 1) (hawait : p.awaits → n = 0) :
    Retop s
      { s with
        calls := update s.calls t (⟨a.cls, p, none⟩ :: rest)
        clinitStarts := update s.clinitStarts a.cls n }
      t a ⟨a.cls, p, none⟩ rest := by
  obtain ⟨hst, hth, hd⟩ := h.owner t a (by simp [hc]) hown
  exact
    { before := hc
      calls := rfl
      cls := rfl
      dims := hd
      free := h.ownFree hc hown
      unfinished := by simp [hst]
      sound := by simp [hst]
      arrayDims := rfl
      state := fun _ _ => rfl
      otherBase := fun _ _ => rfl
      arrays := fun _ _ => .inl rfl
      thread := fun _ _ => rfl
      starts := fun q hq => by simp [hq]
      failure := fun _ _ => rfl
      failureMono := fun hf => hf
      left := by simp [hst]
      owner := fun _ => ⟨hst, hth⟩
      owned := fun _ => .inr ⟨hph, hth⟩
      broken := fun hb => by simp [hst] at hb
      pending := fun hp => by simp [hawait hp]
      once := by simpa using hn
      settled := fun hf => .inl hf
      result := rfl }

variable {m : Memory}

/-- The rest of `initialize_class` once the superclass is out of the way. -/
theorem initializeInterfaces_good {i : ℕ} (h : InitInv H g s)
    (hc : s.calls t = a :: rest) (hawait : a.phase.awaits)
    (hready : g → ∀ p, H.superClass a.cls.base = some p → s.SuperReady ⟨p, 0⟩ rest) :
    InitGood H g s (initializeInterfaces H s t a.cls rest m i) := by
  have hown : a.phase.owns := by cases hph : a.phase <;> simp_all [Phase.awaits, Phase.owns]
  have hzero := h.pending t a (by simp [hc]) hawait
  unfold initializeInterfaces
  cases hp : (H.interfaces a.cls.base)[i]? with
  | some p =>
    have hk := stay_retop h hc hown (p := .interfaceAwait i) rfl (Nat.zero_le 1) fun _ => rfl
    have hinv := (h.retop hk fun hG _ => hready hG).push (t := t) (x := ⟨⟨p, 0⟩, .enter, none⟩) rfl
      (by simp)
    refine ⟨hinv.congr rfl rfl rfl (by simp) ?_ rfl, .of_quiet rfl rfl,
      .of_eq rfl rfl rfl⟩
    simp [Vm.quiet, ← hzero]
  | none =>
    dsimp only
    split
    · exact (done_good (s := s.raise t .outOfMemoryError) (h.congr rfl rfl rfl rfl rfl rfl) hc hown
        (by simp)).after (.of_eq rfl rfl rfl)
    · split
      · have hk := stay_retop h hc hown (p := .clinit) rfl le_rfl (by simp [Phase.awaits])
        have hinv := h.retop hk fun hG _ => hready hG
        refine ⟨hinv.congr rfl rfl rfl rfl (by simp [hzero]) rfl, ⟨by simp, ?_⟩,
          .of_eq rfl rfl rfl⟩
        intro hG t' r hr p hsup
        obtain ⟨rfl, rfl⟩ : t = t' ∧ a.cls = r := by simpa using hr
        rcases hready hG p hsup with hi | ⟨b, hb, ho⟩
        · exact .inl hi
        · exact .inr ⟨b, by simp [hb], ho⟩
      · exact done_good h hc hown (by simp)

theorem initializeInterfaces_calls {i : ℕ} (s : Vm) (t : ℕ) (r : ClassRef)
    (rest l : List Activation) :
    initializeInterfaces H { s with calls := update s.calls t l } t r rest m i =
      initializeInterfaces H s t r rest m i := by
  unfold initializeInterfaces
  split <;> simp [Vm.quiet, Vm.done, Vm.ret, Vm.raise, Vm.setArrayStates]

/-- Setting `CD_STATE_INITIALIZING`. The call becomes the owner unless it fails at once. -/
theorem mark_retop {p : Phase} {e : ℕ → Option Throwable} {f : Option Failure}
    (h : InitInv H g s) (hc : s.calls t = a :: rest) (hd : a.cls.dims = 0)
    (hst : s.state a.cls = .loaded ∨ s.state a.cls = .linked) (hph : p.owns ∨ f = some .aborted)
    (hfl : f = s.failure a.cls ∨ f = some .aborted) :
    Retop s
      { s with
        state := update s.state a.cls .initializing
        initializingThread := update s.initializingThread a.cls t
        currentException := e
        failure := update s.failure a.cls f
        calls := update s.calls t (⟨a.cls, p, none⟩ :: rest) }
      t a ⟨a.cls, p, none⟩ rest := by
  have hzero : s.clinitStarts a.cls = 0 := by
    obtain ⟨⟨c, d⟩, p, res⟩ := a
    obtain rfl : d = 0 := hd
    exact h.unstarted c hst
  exact
    { before := hc
      calls := rfl
      cls := rfl
      dims := hd
      free := h.ownFree_of_state hc (by rcases hst with hst | hst <;> simp [hst])
      unfinished := by rcases hst with hst | hst <;> simp [hst]
      sound := by rcases hst with hst | hst <;> simp [hst]
      arrayDims := rfl
      state := fun c hne => by simp [hne]
      otherBase := fun q hne => by
        have hq : q ≠ a.cls := by rintro rfl; exact hne rfl
        simp [hq]
      arrays := fun q hq => by
        have hqa : q ≠ a.cls := by rintro rfl; exact hq hd
        exact .inl (by simp [hqa])
      thread := fun q hq => by simp [hq]
      starts := fun _ _ => rfl
      failure := fun q hq => by simp [hq]
      failureMono := fun hf => by
        simp only [update_self]
        rcases hfl with rfl | rfl
        · exact hf
        · simp
      left := by simp
      owner := by simp
      owned := fun _ => by
        rcases hph with hph | rfl
        · exact .inr ⟨hph, by simp⟩
        · exact .inl (by simp)
      broken := by simp
      pending := fun _ => hzero
      once := h.once a.cls
      settled := fun hf => by
        rcases hfl with rfl | rfl
        · exact .inl (by simpa [Vm.Failed] using hf)
        · exact absurd hf (by simp [Vm.Failed])
      result := rfl }

theorem ClassRef.eq_base (r : ClassRef) (h : r.dims = 0) : r = ⟨r.base, 0⟩ := by
  rw [← h]

variable {r : ClassRef}

theorem InitInv.dims_eq_zero (h : InitInv H g s) (hk : H.kind r ≠ .ordinaryArray)
    (hst : s.state r ≠ .initialized) : r.dims = 0 := by
  obtain ⟨c, d⟩ := r
  cases hp : H.isPrimitive c with
  | false =>
    cases d with
    | zero => rfl
    | succ d => simp [Hierarchy.kind, hp] at hk
  | true =>
    match d with
    | 0 => rfl
    | 1 => exact absurd (h.primitive ⟨c, 1⟩ hp le_rfl) hst
    | d + 2 => simp [Hierarchy.kind, hp] at hk

theorem owner_of_clinit {t' : ℕ} {b : Activation} (h : InitInv H g s)
    (hb : b ∈ s.calls t') (hcls : b.cls = a.cls) (hph : b.phase = .clinit) :
    s.state a.cls = .initializing ∧ s.initializingThread a.cls = t' ∧ a.cls.dims = 0 := by
  rw [← hcls]
  exact h.owner t' b hb (by simp [hph, Phase.owns])

/-- From the first line of `initialize_class` to its first suspension or return. -/
theorem enterInitializeClass_good (h : InitInv H g s) (hc : s.calls t = a :: rest)
    (hph : a.phase = .enter) : InitGood H g s (enterInitializeClass H s t a.cls rest m) := by
  have hown : a.phase.owns = false := by simp [hph, Phase.owns]
  unfold enterInitializeClass
  split
  · rename_i hk
    have hd : a.cls.dims ≠ 0 := by
      intro hd
      unfold Hierarchy.kind at hk
      split at hk <;> simp_all
    exact ret_good h hc hown (fun _ h0 => absurd h0 hd) fun _ t' b hb hcls hb' =>
      absurd (owner_of_clinit h hb hcls hb').2.2 hd
  rename_i hk
  split
  · rename_i hst
    refine ret_good h hc hown (fun _ hd => ?_) fun _ t' b hb hcls hb' => ?_
    · rcases hst with hst | hst
      · exact .inl hst
      · refine .inr (.inl ?_)
        rw [a.cls.eq_base hd] at hst ⊢
        exact h.broken _ hst
    · have hi := (owner_of_clinit h hb hcls hb').1
      simp [hi] at hst
  rename_i hst
  rw [not_or] at hst
  have hd := h.dims_eq_zero hk hst.1
  have hframe : BaseFrame H s (if (s.state a.cls).rank < ClassState.linked.rank
      then linkClass H t s a.cls else (0, s)).2 := by
    split
    · exact (linkClass_frame H t s a.cls).base
    · exact (LinkFrame.refl (H := H) 0 s).base
  have hfail : (if (s.state a.cls).rank < ClassState.linked.rank
      then linkClass H t s a.cls else (0, s)).1 ≠ 0 → (if (s.state a.cls).rank <
        ClassState.linked.rank then linkClass H t s a.cls else (0, s)).2.state a.cls =
          .linkageError := by
    split
    · exact linkClass_failed hd
    · simp
  have hkeeps : KeepsFailures s (if (s.state a.cls).rank < ClassState.linked.rank
      then linkClass H t s a.cls else (0, s)).2 := by
    split
    · exact .link (by simp [hd])
    · exact .of_eq rfl rfl rfl
  dsimp only
  generalize (if (s.state a.cls).rank < ClassState.linked.rank
      then linkClass H t s a.cls else (0, s)) = l at hframe hfail hkeeps ⊢
  refine InitGood.after ?_ hkeeps
  have hl := h.frame hframe
  have hlc : l.2.calls t = a :: rest := by rw [hframe.calls]; exact hc
  split
  · rename_i hstatus
    have herr := hfail hstatus
    refine ret_good hl hlc hown (fun _ _ => .inr (.inl ?_)) fun _ t' b hb hcls hb' => ?_
    · rw [a.cls.eq_base hd] at herr ⊢
      exact hl.broken _ herr
    · have hi := (owner_of_clinit hl hb hcls hb').1
      simp [hi] at herr
  split
  · rename_i hi
    split
    · rename_i ht
      refine ret_good hl hlc hown (fun _ _ => .inr ?_) fun _ t' b hb hcls hb' => ?_
      · rw [a.cls.eq_base hd] at hi ht ⊢
        rcases hl.owned _ hi with hf | ⟨b, hb, hr, ho⟩
        · exact .inl hf
        · rw [ht, hlc] at hb
          rcases List.mem_cons.mp hb with rfl | hb
          · simp [hown] at ho
          · exact .inr ⟨b, hb, hr, ho⟩
      · exact (owner_of_clinit hl hb hcls hb').2.1.symm.trans ht
    · exact ⟨(hl.wait hlc hown hd hi).congr rfl rfl rfl rfl rfl rfl, .of_quiet rfl rfl,
        .of_eq rfl rfl rfl⟩
  rename_i hni
  split
  · exact (ret_good (s := { l.2 with
      currentException := update l.2.currentException t (l.2.linkageError a.cls) })
      (v := -1) (hl.congr rfl rfl rfl rfl rfl rfl) hlc hown (by simp) (by simp)).after
        (.of_eq rfl rfl rfl)
  rename_i hne
  have hready : l.2.state a.cls = .loaded ∨ l.2.state a.cls = .linked := by
    have hinit : l.2.state a.cls ≠ .initialized := by
      rw [a.cls.eq_base hd] at hst ⊢
      by_cases hld : s.state ⟨a.cls.base, 0⟩ = .loaded
      · rcases hframe.fromLoaded _ hld with hs | hs | ⟨hs, -⟩ <;> simp [hs]
      · rw [(hframe.settled _ hld).1]
        exact hst.1
    cases hs : l.2.state a.cls <;> simp_all
  split
  · have hk := mark_retop (p := .waiting) (f := some .aborted)
      (e := update l.2.currentException t (some .outOfMemoryError)) hl hlc hd hready
      (by simp) (by simp)
    have hinv := hl.retop hk (by simp [Phase.pastSuper])
    have hgood := ret_good (t := t) (a := ⟨a.cls, .waiting, none⟩) (v := -1) hinv
      (show _ = _ :: rest by simp) rfl (by simp) (by simp)
    simpa [Vm.ret, Vm.raise] using hgood.after hk.keepsFailures
  · have hk := mark_retop (p := .superAwait) (f := l.2.failure a.cls)
      (e := l.2.currentException) hl hlc hd hready (by simp [Phase.owns]) (by simp)
    have hinv := hl.retop hk (by simp [Phase.pastSuper])
    cases hsup : H.superClass a.cls.base with
    | some p =>
      have hpush := hinv.push (t := t) (x := ⟨⟨p, 0⟩, .enter, none⟩) rfl (by simp [hsup])
      exact ⟨hpush.congr rfl rfl rfl (by simp) rfl (by simp [Vm.quiet]), .of_quiet rfl rfl,
        hk.keepsFailures.trans (.of_eq rfl (by simp [Vm.quiet]) rfl)⟩
    | none =>
      have hgood := initializeInterfaces_good (t := t) (a := ⟨a.cls, .superAwait, none⟩)
        (m := m) (i := 0) hinv (show _ = _ :: rest by simp) rfl (by simp [hsup])
      have hcalls := initializeInterfaces_calls (H := H) (m := m) (i := 0)
        { l.2 with
          state := update l.2.state a.cls .initializing
          initializingThread := update l.2.initializingThread a.cls t }
        t a.cls rest (⟨a.cls, .superAwait, none⟩ :: rest)
      dsimp only
      rw [← hcalls]
      simpa using hgood.after hk.keepsFailures

/-- The step does not carry a call past the await of a superclass that has failed: linking of
the superclass failed, its `<clinit>` threw, or its initialisation was abandoned. -/
def superIntact (H : Hierarchy) (s : Vm) : InitEvent → Bool
  | .poll t _ =>
      match s.calls t with
      | ⟨r, .superAwait, some 0⟩ :: _ =>
          ((H.superClass r.base).all fun p => (s.failure ⟨p, 0⟩).isNone)
      | _ => true
  | _ => true

theorem superIntact_poll (h : superIntact H s (.poll t m))
    (hc : s.calls t = a :: rest) (hph : a.phase = .superAwait) (hres : a.result = some 0) {p : ℕ}
    (hsup : H.superClass a.cls.base = some p) : s.failure ⟨p, 0⟩ = none := by
  obtain ⟨r, ph, res⟩ := a
  obtain rfl : ph = .superAwait := hph
  obtain rfl : res = some 0 := hres
  simpa [superIntact, hc, hsup] using h

theorem pollInitializeClass_good (h : InitInv H g s)
    (hc : s.calls t = a :: rest) (hok : g → superIntact H s (.poll t m))
    (hstep : pollInitializeClass H s t m a rest = some s') : InitGood H g s s' := by
  have hstk := h.stack t
  rw [hc] at hstk
  unfold pollInitializeClass at hstep
  split at hstep
  · rename_i hph
    cases hstep
    exact enterInitializeClass_good h hc hph
  · rename_i hph
    obtain ⟨hd, hnl, hnk⟩ := h.waiting t a (by simp [hc]) hph
    split at hstep
    · cases hstep
      exact ⟨h.congr rfl rfl rfl rfl rfl rfl, .of_quiet rfl rfl, .of_eq rfl rfl rfl⟩
    · rename_i hni
      cases hstep
      refine ret_good h hc (by simp [hph, Phase.owns]) (fun _ _ => ?_) fun _ t' b hb hcls hb' => ?_
      · cases hst : s.state a.cls with
        | initialized => exact .inl hst
        | linkageError =>
          refine .inr (.inl ?_)
          rw [a.cls.eq_base hd] at hst ⊢
          exact h.broken _ hst
        | loaded => exact absurd hst hnl
        | linked => exact absurd hst hnk
        | initializing => exact absurd hst hni
      · exact absurd (owner_of_clinit h hb hcls hb').1 hni
  · rename_i res hph hres
    split at hstep
    · cases hstep
      exact done_good h hc (by simp [hph, Phase.owns]) (by simp)
    · rename_i h0
      cases hstep
      refine initializeInterfaces_good h hc (by simp [hph, Phase.awaits]) fun hG p hsup => ?_
      have hzero : a.result = some 0 := by simp_all
      have hintact := superIntact_poll (hok hG) hc hph hzero hsup
      rcases hstk.1.answer hph hzero p hsup with hi | hf | ho
      · exact .inl ⟨hi, hintact⟩
      · exact absurd hintact hf
      · exact .inr ho
  · rename_i i res hph hres
    split at hstep
    · cases hstep
      exact done_good h hc (by simp [hph, Phase.owns]) (by simp)
    · cases hstep
      exact initializeInterfaces_good h hc (by simp [hph, Phase.awaits])
        fun hG => hstk.1.past hG (by simp [hph, Phase.pastSuper])
  · cases hstep

theorem finishClinit_good {thrown : Option Throwable} (h : InitInv H g s)
    (hc : s.calls t = a :: rest) (hph : a.phase = .clinit) :
    InitGood H g s (finishClinit s t a rest thrown error) := by
  have hown : a.phase.owns := by simp [hph, Phase.owns]
  have hset : ∀ e (error : Bool) why, (error → why ≠ none) → InitGood H g s
      ({ s with currentException := e }.done t rest a.cls error why) := by
    intro e error why hwhy
    exact (done_good (s := { s with currentException := e }) (h.congr rfl rfl rfl rfl rfl rfl) hc hown
      hwhy).after (.of_eq rfl rfl rfl)
  unfold finishClinit
  cases thrown with
  | none => exact hset _ false none (by simp)
  | some e =>
    dsimp only
    split
    · exact hset _ false (some .clinit) (by simp)
    · exact hset _ error (some .clinit) (by simp)

theorem linkNewArray_frame (H : Hierarchy) (s : Vm) (t : ℕ) (r : ClassRef) :
    ∃ n, LinkFrame H n (s.freshArray r.array) (linkNewArray H s t r) := by
  unfold linkNewArray
  dsimp only
  split
  · exact ⟨_, linkClass_frame H t _ _⟩
  · exact ⟨0, .refl 0 _⟩

theorem linkNewArray_failure {q : ClassRef} (hq : q.dims ≠ 0) (hqr : q ≠ r.array) :
    (linkNewArray H s t r).failure q = s.failure q := by
  have hfresh : (s.freshArray r.array).failure q = s.failure q := by simp [Vm.freshArray, hqr]
  unfold linkNewArray
  dsimp only
  split
  · exact (linkClass_failure_array hq hqr).trans hfresh
  · exact hfresh

theorem linkNewArray_component
    (h : (linkNewArray H s t r).Failed r.array) : (linkNewArray H s t r).state r ≠ .loaded := by
  unfold linkNewArray at h ⊢
  dsimp only at h ⊢
  split at h
  · rename_i hrank
    rw [if_pos hrank]
    refine (linkClass_frame H t _ _).arrays r fun hl => ?_
    simp [hl, ClassState.rank] at hrank
  · simp [Vm.Failed, Vm.freshArray] at h

theorem createArrayClass_inv (h : InitInv H g s)
    (hr : r.dims = s.arrayDims r.base) : InitInv H g (createArrayClass H s t r) := by
  have hne : ∀ c, (⟨c, 0⟩ : ClassRef) ≠ r.array := by simp [ClassRef.array]
  have hprim : ∀ q : ClassRef, H.isPrimitive q.base → q.dims ≤ 1 → q ≠ r.array := by
    rintro ⟨c, d⟩ hp hd hq
    obtain ⟨rfl, rfl⟩ : c = r.base ∧ d = r.dims + 1 := by simpa [ClassRef.array] using hq
    have := h.primitiveDims r.base hp
    dsimp only at hd
    omega
  have hfresh : InitInv H g (s.freshArray r.array) := by
    refine h.frame ⟨rfl, rfl, rfl, ?_, ?_, ?_, ?_, fun _ _ => le_rfl⟩
    · intro c _
      simp [Vm.freshArray, hne c]
    · intro c hc
      simp [Vm.freshArray, hne c, hc]
    · intro c hc
      simpa [Vm.freshArray, hne c] using hc
    · intro q hp hd hq
      simpa [Vm.freshArray, hprim q hp hd] using hq
  obtain ⟨n, hlink⟩ := linkNewArray_frame H s t r
  have hdims : (linkNewArray H s t r).arrayDims = s.arrayDims := hlink.arrayDims
  refine (hfresh.frame hlink.base).frame ⟨rfl, rfl, rfl, ?_, ?_, ?_, ?_, ?_⟩
  · intro c _
    simp [createArrayClass, Vm.setState, hne c]
  · intro c hc
    simp [createArrayClass, Vm.setState, hne c, hc]
  · intro c hc
    exact hc
  · intro q hp hd hq
    simpa [createArrayClass, Vm.setState, hprim q hp hd] using hq
  · intro c _
    by_cases hcr : c = r.base
    · subst hcr
      simp [createArrayClass, hdims, ← hr]
    · simp [createArrayClass, hcr]

theorem createArrayClass_keepsFailures (hr : r.dims = s.arrayDims r.base) :
    KeepsFailures s (createArrayClass H s t r) := by
  intro hs
  obtain ⟨n, hlink⟩ := linkNewArray_frame H s t r
  have hdims : (linkNewArray H s t r).arrayDims = s.arrayDims := hlink.arrayDims
  have hnew : ∀ q, s.Failed q → q ≠ r.array := by
    rintro q hq rfl
    have := (hs _ hq).2.1
    simp only [ClassRef.array] at this
    omega
  have hle : ∀ c, s.arrayDims c ≤ (createArrayClass H s t r).arrayDims c := by
    intro c
    by_cases hc : c = r.base
    · subst hc
      simp [createArrayClass, ← hr]
    · simp [createArrayClass, hc, hdims]
  have hfresh : ∀ q, q ≠ r.array → (s.freshArray r.array).failure q = s.failure q ∧
      (s.freshArray r.array).state q = s.state q := by
    intro q hq
    simp [Vm.freshArray, hq]
  refine ⟨fun q hq => ?_, fun q hq => ?_⟩
  · by_cases hqa : q = r.array
    · subst hqa
      have hst := linkNewArray_component (H := H) (s := s) (t := t) hq
      refine ⟨by simpa [createArrayClass, Vm.setState] using hst, ?_, ?_⟩ <;>
        simp [createArrayClass, ClassRef.array]
    · have hstate : (createArrayClass H s t r).state q = (linkNewArray H s t r).state q := by
        simp [createArrayClass, Vm.setState, hqa]
      have hq' : (linkNewArray H s t r).Failed q := hq
      rw [hstate]
      rcases hlink.failure q with hf | ⟨-, hne, h0⟩
      · rw [Vm.Failed, hf, (hfresh q hqa).1] at hq'
        obtain ⟨h1, h2, h3⟩ := hs q hq'
        rw [← (hfresh q hqa).2] at h1 h3
        refine ⟨hlink.arrays q h1, h2.trans (hle _), fun hd => ?_⟩
        obtain ⟨c, k⟩ := q
        obtain rfl : k = 0 := hd
        rw [(hlink.settled c h1).1]
        exact h3 rfl
      · refine ⟨hne, ?_, fun hd => .inl (h0 hd)⟩
        by_cases hd : q.dims = 0
        · simp [hd]
        · rw [Vm.Failed, linkNewArray_failure hd hqa] at hq'
          exact (hs q hq').2.1.trans (hle _)
  · have hqa := hnew q hq
    rw [Vm.Failed, ← (hfresh q hqa).1] at hq
    rcases hlink.failure q with hf | hf
    · rw [← hf] at hq
      exact hq
    · exact .inl hf.1

theorem initStep_good {e : InitEvent} (h : InitInv H g s)
    (hok : g → superIntact H s e) (hstep : initStep H s e = some s') : InitGood H g s s' := by
  cases e with
  | call t r =>
    simp only [initStep] at hstep
    split at hstep
    · rename_i hrun
      cases hstep
      refine ⟨(h.push (t := t) (x := ⟨r, .enter, none⟩) rfl ?_).congr rfl rfl rfl rfl rfl rfl,
        .of_quiet rfl rfl, .of_eq rfl rfl rfl⟩
      intro b hb hph
      have hrun := hrun.1
      cases hcalls : s.calls t <;> simp_all [Vm.running]
    · cases hstep
  | link t r =>
    simp only [initStep] at hstep
    split at hstep
    · rename_i hrun
      cases hstep
      exact ⟨(h.frame (linkClass_frame H t s r).base).congr rfl rfl rfl rfl rfl rfl,
        .of_quiet rfl rfl, (KeepsFailures.link hrun.2).trans (.of_eq rfl rfl rfl)⟩
    · cases hstep
  | createArray t r =>
    simp only [initStep] at hstep
    split at hstep
    · rename_i hrun
      cases hstep
      exact ⟨(createArrayClass_inv h hrun.2).congr rfl rfl rfl rfl rfl rfl, .of_quiet rfl rfl,
        (createArrayClass_keepsFailures hrun.2).trans (.of_eq rfl rfl rfl)⟩
    · cases hstep
  | catchException t =>
    simp only [initStep] at hstep
    split at hstep
    · cases hstep
      exact ⟨h.congr rfl rfl rfl rfl rfl rfl, .of_quiet rfl rfl, .of_eq rfl rfl rfl⟩
    · cases hstep
  | poll t m =>
    simp only [initStep] at hstep
    cases hc : s.calls t with
    | nil => simp [hc] at hstep
    | cons a rest =>
      rw [hc] at hstep
      exact pollInitializeClass_good h hc hok hstep
  | clinitReturns t thrown error =>
    simp only [initStep] at hstep
    cases hc : s.calls t with
    | nil => simp [hc] at hstep
    | cons a rest =>
      rw [hc] at hstep
      dsimp only at hstep
      split at hstep
      · cases hstep
        exact finishClinit_good h hc ‹_›
      · cases hstep

theorem initial_inv (H : Hierarchy) (g : Prop) : InitInv H g (Vm.initial H) := by
  refine ⟨?_, ?_, ?_, ?_, ?_, ?_, ?_, ?_, ?_, ?_⟩
  · simp [Vm.initial]
  · intro c hc
    simp only [Vm.initial] at hc
    split at hc <;> cases hc
  · intro c hc
    simp only [Vm.initial] at hc
    split at hc <;> cases hc
  iterate 4 simp [Vm.initial]
  · intro r hp hd
    simp [Vm.initial, hp, hd]
  · intro c hc
    simp [Vm.initial, hc]
  · simp [Vm.initial, Stacked]

/-- Each `<clinit>` is started at most once. -/
def ClinitOnce (s : Vm) : Prop := ∀ r, s.clinitStarts r ≤ 1

/-- When the last transition started the `<clinit>` of a class, its superclass has been
initialised without a failure or is being initialised by a caller on the same thread. -/
def SuperInitializedFirst (H : Hierarchy) (s : Vm) : Prop :=
  ∀ t r, s.started = some (t, r) → ∀ p, H.superClass r.base = some p →
    s.SuperReady ⟨p, 0⟩ (s.calls t)

/-- When the last transition returned success for a class whose `<clinit>` is running, it did so
to the thread that runs it. -/
def NoEarlySuccess (s : Vm) : Prop :=
  ∀ t r, s.returned = some (t, r, 0) →
    ∀ t', ∀ b ∈ s.calls t', b.cls = r → b.phase = .clinit → t' = t

/-- The state machine of class initialisation, in any interleaving in which no call goes past a
failed superclass. -/
theorem initializeClass_stateMachine (H : Hierarchy) {s : Vm}
    (h : Runs (initStep H) (fun s e => superIntact H s e = true) (Vm.initial H) s) :
    ClinitOnce s ∧ SuperInitializedFirst H s ∧ NoEarlySuccess s := by
  have hgood : InitInv H True s ∧ Observed H True s :=
    h.invariant (fun s => InitInv H True s ∧ Observed H True s)
      ⟨initial_inv H True, .of_quiet rfl rfl⟩ fun _ _ _ hv hok hstep =>
        have hg := initStep_good hv.1 (fun _ => hok) hstep
        ⟨hg.inv, hg.observed⟩
  exact ⟨hgood.1.once, hgood.2.superFirst trivial, hgood.2.success⟩

/-- `Object`, a class with an initialiser and constant fields, and a subclass of it. -/
def threeClasses : Hierarchy where
  isPrimitive _ := false
  superClass c := if c = 0 ∨ 2 < c then none else some (c - 1)
  interfaces _ := []
  hasClinit c := c = 1 ∨ c = 2
  verifies _ := true
  object := 0
  cloneable := 0
  serializable := 0
  super_lt := by
    intro c p h
    split at h <;> grind
  interfaces_lt := by simp

def enough : Memory := ⟨false, false⟩

/-- Thread 0 initialises the subclass from scratch, up to the start of its `<clinit>`. -/
theorem initializeClass_stateMachine_subclass :
    ∃ s, Runs (initStep threeClasses) (fun s e => superIntact threeClasses s e = true)
        (Vm.initial threeClasses) s ∧ s.started = some (0, ⟨2, 0⟩) ∧
      ClinitOnce s ∧ SuperInitializedFirst threeClasses s ∧ NoEarlySuccess s := by
  have hrun : Runs (initStep threeClasses) (fun s e => superIntact threeClasses s e = true)
      (Vm.initial threeClasses) _ := runs_of_checkedRun
    (w := [.call 0 ⟨2, 0⟩, .poll 0 enough, .poll 0 enough, .poll 0 enough, .poll 0 enough,
      .clinitReturns 0 none false, .poll 0 enough]) rfl
  exact ⟨_, hrun, rfl, initializeClass_stateMachine _ hrun⟩

/-- An allocation fails while thread 0 sets the constant fields of class 1. The error is caught,
and the `<clinit>` of the subclass then starts although class 1 was never initialised. -/
theorem initializeClass_past_failed_superclass :
    ¬ ∀ (H : Hierarchy) (s : Vm), Reachable (initStep H) (Vm.initial H) s →
      ClinitOnce s ∧ SuperInitializedFirst H s ∧ NoEarlySuccess s := by
  intro hall
  have hrun : Reachable (initStep threeClasses) (Vm.initial threeClasses) _ := reachable_of_run
    (w := [.call 0 ⟨1, 0⟩, .poll 0 enough, .poll 0 enough, .poll 0 ⟨false, true⟩,
      .catchException 0, .call 0 ⟨2, 0⟩, .poll 0 enough, .poll 0 enough, .poll 0 enough]) rfl
  rcases (hall threeClasses _ hrun).2.1 0 ⟨2, 0⟩ rfl 1 rfl with ⟨hst, -⟩ | ⟨b, hb, hcls, -⟩
  · exact absurd hst (by decide)
  · revert b
    decide

end TraceJvm
