import TraceJvm.ClassInit

/-! Ownership of `CD_STATE_INITIALIZING`. A class in that state belongs to one activation, and
the activations of one thread own different classes. -/
namespace TraceJvm

open Transition Function List

def Stacked (P : Activation → List Activation → Prop) : List Activation → Prop
  | [] => True
  | a :: rest => P a rest ∧ Stacked P rest

variable {l : List Activation}

theorem Stacked.imp {P Q : Activation → List Activation → Prop}
    (h : Stacked P l) (hpq : ∀ a rest, (∀ b ∈ a :: rest, b ∈ l) → P a rest → Q a rest) :
    Stacked Q l := by
  induction l with
  | nil => trivial
  | cons a rest ih =>
    refine ⟨hpq a rest (fun _ hb => hb) h.1, ih h.2 fun a' rest' hsub hp => ?_⟩
    exact hpq a' rest' (fun b hb => mem_cons_of_mem _ (hsub b hb)) hp

/-- Some call in the list is initialising `r`. -/
def OwnedIn (r : ClassRef) (l : List Activation) : Prop :=
  ∃ b ∈ l, b.cls = r ∧ b.phase.owns = true

/-- What a zero result says about the class: it is initialised, it has failed, or a caller on
the same thread is initialising it. -/
def Vm.Answered (s : Vm) (r : ClassRef) (callers : List Activation) : Prop :=
  s.state r = .initialized ∨ s.failure r ≠ none ∨ OwnedIn r callers

def Vm.SuperReady (s : Vm) (r : ClassRef) (callers : List Activation) : Prop :=
  s.state r = .initialized ∧ s.failure r = none ∨ OwnedIn r callers

def Phase.pastSuper : Phase → Bool
  | .interfaceAwait _ => true
  | .clinit => true
  | _ => false

/-- What holds of an activation and its callers. The last field is claimed only when `g` does. -/
structure StackInv (H : Hierarchy) (g : Prop) (s : Vm) (a : Activation)
    (rest : List Activation) : Prop where
  distinct : a.phase.owns → ∀ b ∈ rest, b.phase.owns → b.cls ≠ a.cls
  child : ∀ b, rest.head? = some b → b.phase = .superAwait →
    H.superClass b.cls.base = some a.cls.base ∧ a.cls.dims = 0
  answer : a.phase = .superAwait → a.result = some 0 →
    ∀ p, H.superClass a.cls.base = some p → s.Answered ⟨p, 0⟩ rest
  past : g → a.phase.pastSuper → ∀ p, H.superClass a.cls.base = some p → s.SuperReady ⟨p, 0⟩ rest

structure InitInv (H : Hierarchy) (g : Prop) (s : Vm) : Prop where
  owner : ∀ t, ∀ a ∈ s.calls t, a.phase.owns →
    s.state a.cls = .initializing ∧ s.initializingThread a.cls = t ∧ a.cls.dims = 0
  owned : ∀ c, s.state ⟨c, 0⟩ = .initializing →
    s.failure ⟨c, 0⟩ ≠ none ∨ OwnedIn ⟨c, 0⟩ (s.calls (s.initializingThread ⟨c, 0⟩))
  broken : ∀ c, s.state ⟨c, 0⟩ = .linkageError → s.failure ⟨c, 0⟩ ≠ none
  unstarted : ∀ c, s.state ⟨c, 0⟩ = .loaded ∨ s.state ⟨c, 0⟩ = .linked →
    s.clinitStarts ⟨c, 0⟩ = 0
  pending : ∀ t, ∀ a ∈ s.calls t, a.phase.awaits → s.clinitStarts a.cls = 0
  once : ∀ r, s.clinitStarts r ≤ 1
  waiting : ∀ t, ∀ a ∈ s.calls t, a.phase = .waiting →
    a.cls.dims = 0 ∧ s.state a.cls ≠ .loaded ∧ s.state a.cls ≠ .linked
  primitive : ∀ r, H.isPrimitive r.base → r.dims ≤ 1 → s.state r = .initialized
  primitiveDims : ∀ c, H.isPrimitive c → 1 ≤ s.arrayDims c
  stack : ∀ t, Stacked (StackInv H g s) (s.calls t)

structure Observed (H : Hierarchy) (g : Prop) (s : Vm) : Prop where
  success : ∀ t r, s.returned = some (t, r, 0) →
    ∀ t', ∀ b ∈ s.calls t', b.cls = r → b.phase = .clinit → t' = t
  superFirst : g → ∀ t r, s.started = some (t, r) → ∀ p, H.superClass r.base = some p →
    s.SuperReady ⟨p, 0⟩ (s.calls t)

variable {H : Hierarchy} {g : Prop} {s s' : Vm} {t : ℕ}

theorem Observed.of_quiet (hs : s.started = none) (hr : s.returned = none) : Observed H g s :=
  ⟨by simp [hr], by simp [hs]⟩

structure Grows (s s' : Vm) : Prop where
  initialized : ∀ c, s.state ⟨c, 0⟩ = .initialized →
    s'.state ⟨c, 0⟩ = .initialized ∧ s'.failure ⟨c, 0⟩ = s.failure ⟨c, 0⟩
  failure : ∀ c, s.failure ⟨c, 0⟩ ≠ none → s'.failure ⟨c, 0⟩ ≠ none

theorem Vm.Answered.grows {c : ℕ} (h : s.Answered ⟨c, 0⟩ l)
    (hg : Grows s s') : s'.Answered ⟨c, 0⟩ l := by
  rcases h with h | h | h
  · exact .inl (hg.initialized c h).1
  · exact .inr (.inl (hg.failure c h))
  · exact .inr (.inr h)

theorem Vm.SuperReady.grows {c : ℕ} (h : s.SuperReady ⟨c, 0⟩ l)
    (hg : Grows s s') : s'.SuperReady ⟨c, 0⟩ l := by
  rcases h with ⟨h, hf⟩ | h
  · exact .inl ⟨(hg.initialized c h).1, (hg.initialized c h).2.trans hf⟩
  · exact .inr h

variable {rest : List Activation} {a : Activation}

theorem StackInv.grows (h : StackInv H g s a rest) (hg : Grows s s') : StackInv H g s' a rest where
  distinct := h.distinct
  child := h.child
  answer hp hr p hsup := (h.answer hp hr p hsup).grows hg
  past hG hp p hsup := (h.past hG hp p hsup).grows hg

/-- A change that touches no call, and no base class except to take it out of `loaded`. -/
structure BaseFrame (H : Hierarchy) (s s' : Vm) : Prop where
  calls : s'.calls = s.calls
  initializingThread : s'.initializingThread = s.initializingThread
  clinitStarts : s'.clinitStarts = s.clinitStarts
  settled : ∀ c, s.state ⟨c, 0⟩ ≠ .loaded →
    s'.state ⟨c, 0⟩ = s.state ⟨c, 0⟩ ∧ s'.failure ⟨c, 0⟩ = s.failure ⟨c, 0⟩
  fromLoaded : ∀ c, s.state ⟨c, 0⟩ = .loaded →
    s'.state ⟨c, 0⟩ = .loaded ∨ s'.state ⟨c, 0⟩ = .linked ∨
      s'.state ⟨c, 0⟩ = .linkageError ∧ s'.failure ⟨c, 0⟩ ≠ none
  failure : ∀ c, s.failure ⟨c, 0⟩ ≠ none → s'.failure ⟨c, 0⟩ ≠ none
  primitive : ∀ r, H.isPrimitive r.base → r.dims ≤ 1 → s.state r = .initialized →
    s'.state r = .initialized
  primitiveDims : ∀ c, H.isPrimitive c → s.arrayDims c ≤ s'.arrayDims c

theorem BaseFrame.grows (h : BaseFrame H s s') : Grows s s' where
  initialized c hc := by
    have hk := h.settled c (by simp [hc])
    exact ⟨hk.1.trans hc, hk.2⟩
  failure := h.failure

theorem LinkFrame.base {n : ℕ} (h : LinkFrame H n s s') : BaseFrame H s s' :=
  { h with
    failure c hc := by
      rcases h.failure ⟨c, 0⟩ with hf | hf
      · rw [hf]; exact hc
      · simp [hf.1]
    primitive r hp _ hr := h.primitive r hp hr
    primitiveDims c _ := by rw [h.arrayDims] }

/-- Linking and everything else that leaves the calls alone. -/
theorem InitInv.frame (h : InitInv H g s) (hl : BaseFrame H s s') : InitInv H g s' where
  owner t a ha ho := by
    rw [hl.calls] at ha
    obtain ⟨hst, hth, hd⟩ := h.owner t a ha ho
    obtain ⟨⟨c, k⟩, ph, res⟩ := a
    obtain rfl : k = 0 := hd
    refine ⟨(hl.settled c (by simp_all)).1.trans hst, ?_, rfl⟩
    rw [hl.initializingThread]
    exact hth
  owned c hc := by
    have hst : s.state ⟨c, 0⟩ = .initializing := by
      by_cases hld : s.state ⟨c, 0⟩ = .loaded
      · have := hl.fromLoaded c hld
        simp_all
      · rw [← (hl.settled c hld).1, hc]
    rw [(hl.settled c (by simp [hst])).2, hl.calls, hl.initializingThread]
    exact h.owned c hst
  broken c hc := by
    by_cases hld : s.state ⟨c, 0⟩ = .loaded
    · have := hl.fromLoaded c hld
      simp_all
    · rw [(hl.settled c hld).2]
      exact h.broken c (by rw [← (hl.settled c hld).1, hc])
  unstarted c hc := by
    rw [hl.clinitStarts]
    by_cases hld : s.state ⟨c, 0⟩ = .loaded
    · exact h.unstarted c (.inl hld)
    · rw [(hl.settled c hld).1] at hc
      exact h.unstarted c hc
  pending t a ha hp := by
    rw [hl.calls] at ha
    rw [hl.clinitStarts]
    exact h.pending t a ha hp
  once r := by
    rw [hl.clinitStarts]
    exact h.once r
  waiting t a ha hp := by
    rw [hl.calls] at ha
    obtain ⟨hd, h1, h2⟩ := h.waiting t a ha hp
    obtain ⟨⟨c, k⟩, ph, res⟩ := a
    obtain rfl : k = 0 := hd
    exact ⟨rfl, by rw [(hl.settled c h1).1]; exact h1, by rw [(hl.settled c h1).1]; exact h2⟩
  primitive r hp hr := hl.primitive r hp hr (h.primitive r hp hr)
  primitiveDims c hc :=
    (h.primitiveDims c hc).trans (hl.primitiveDims c hc)
  stack t := by
    rw [hl.calls]
    exact (h.stack t).imp fun a rest _ hp => hp.grows hl.grows

theorem InitInv.congr (h : InitInv H g s) (hst : s'.state = s.state)
    (hth : s'.initializingThread = s.initializingThread) (hd : s'.arrayDims = s.arrayDims)
    (hc : s'.calls = s.calls) (hn : s'.clinitStarts = s.clinitStarts)
    (hf : s'.failure = s.failure) : InitInv H g s' := by
  refine h.frame ⟨hc, hth, hn, ?_, ?_, ?_, ?_, ?_⟩ <;> simp_all

/-- `link_class`, verification or `<clinit>` has failed for the class. -/
def Vm.Failed (s : Vm) (r : ClassRef) : Prop :=
  s.failure r = some .link ∨ s.failure r = some .clinit

/-- A failed class exists and is out of `loaded`; a failed base class is in a final state. -/
def FailureSettled (s : Vm) : Prop :=
  ∀ r, s.Failed r → s.state r ≠ .loaded ∧ r.dims ≤ s.arrayDims r.base ∧
    (r.dims = 0 → s.state r = .linkageError ∨ s.state r = .initialized)

def KeepsFailures (s s' : Vm) : Prop :=
  FailureSettled s → FailureSettled s' ∧ ∀ r, s.Failed r → s'.Failed r

theorem KeepsFailures.trans {s'' : Vm} (h : KeepsFailures s s') (k : KeepsFailures s' s'') :
    KeepsFailures s s'' := by
  intro hs
  obtain ⟨h1, h2⟩ := h hs
  obtain ⟨k1, k2⟩ := k h1
  exact ⟨k1, fun r hr => k2 r (h2 r hr)⟩

theorem KeepsFailures.of_eq (hst : s'.state = s.state) (hf : s'.failure = s.failure)
    (hd : s'.arrayDims = s.arrayDims) : KeepsFailures s s' := by
  have hfailed : ∀ r, s'.Failed r ↔ s.Failed r := by simp [Vm.Failed, hf]
  refine fun hs => ⟨fun r hr => ?_, fun r hr => (hfailed r).mpr hr⟩
  rw [hst, hd]
  exact hs r ((hfailed r).mp hr)

/-- Linking an existing class. -/
theorem KeepsFailures.link {r : ClassRef} (hr : r.dims ≤ s.arrayDims r.base) :
    KeepsFailures s (linkClass H t s r).2 := by
  intro hs
  have hl := linkClass_frame H t s r
  refine ⟨fun q hq => ?_, fun q hq => ?_⟩
  · rw [hl.arrayDims]
    rcases hl.failure q with hf | ⟨-, hne, h0⟩
    · have hold : s.Failed q := by simpa [Vm.Failed, hf] using hq
      obtain ⟨h1, h2, h3⟩ := hs q hold
      refine ⟨hl.arrays q h1, h2, fun hd => ?_⟩
      obtain ⟨c, k⟩ := q
      obtain rfl : k = 0 := hd
      rw [(hl.settled c h1).1]
      exact h3 rfl
    · refine ⟨hne, ?_, fun hd => .inl (h0 hd)⟩
      by_cases hqr : q = r
      · rw [hqr]
        exact hr
      · by_cases hd : q.dims = 0
        · simp [hd]
        · rw [Vm.Failed, linkClass_failure_array hd hqr] at hq
          exact (hs q hq).2.1
  · rcases hl.failure q with hf | hf
    · simpa [Vm.Failed, hf] using hq
    · exact .inl hf.1

theorem mem_update {calls : ℕ → List Activation} {t' : ℕ}
    {b : Activation} (h : b ∈ update calls t l t') :
    t' = t ∧ b ∈ l ∨ t' ≠ t ∧ b ∈ calls t' := by
  by_cases ht : t' = t
  · subst ht
    exact .inl ⟨rfl, by simpa using h⟩
  · exact .inr ⟨ht, by simpa [ht] using h⟩

/-- A new call is entered on top of thread `t`. -/
theorem InitInv.push (h : InitInv H g s) {x : Activation} (hx : x.phase = .enter)
    (hchild : ∀ b, (s.calls t).head? = some b → b.phase = .superAwait →
      H.superClass b.cls.base = some x.cls.base ∧ x.cls.dims = 0) :
    InitInv H g { s with calls := update s.calls t (x :: s.calls t) } := by
  have hmem : ∀ t', ∀ b ∈ update s.calls t (x :: s.calls t) t', b = x ∨ b ∈ s.calls t' := by
    intro t' b hb
    rcases mem_update hb with ⟨rfl, hb'⟩ | ⟨-, hb⟩
    · exact mem_cons.mp hb'
    · exact .inr hb
  have hold : ∀ t', ∀ b ∈ s.calls t', b ∈ update s.calls t (x :: s.calls t) t' := by
    intro t' b hb
    by_cases ht : t' = t
    · subst ht
      simp [hb]
    · simpa [ht] using hb
  exact
    { h with
      owner := fun t' b hb ho => by
        rcases hmem t' b hb with rfl | hb
        · simp [hx, Phase.owns] at ho
        · exact h.owner t' b hb ho
      owned := fun c hc => by
        rcases h.owned c hc with hf | ⟨b, hb, hk⟩
        · exact .inl hf
        · exact .inr ⟨b, hold _ b hb, hk⟩
      pending := fun t' b hb hp => by
        rcases hmem t' b hb with rfl | hb
        · simp [hx, Phase.awaits] at hp
        · exact h.pending t' b hb hp
      waiting := fun t' b hb hp => by
        rcases hmem t' b hb with rfl | hb
        · simp [hx] at hp
        · exact h.waiting t' b hb hp
      stack := fun t' => by
        have hgrow : ∀ t'', Stacked (StackInv H g
            { s with calls := update s.calls t (x :: s.calls t) }) (s.calls t'') :=
          fun t'' => (h.stack t'').imp fun _ _ _ hp => hp.grows ⟨fun _ hc => ⟨hc, rfl⟩, fun _ hc => hc⟩
        by_cases ht : t' = t
        · subst ht
          simp only [update_self]
          refine ⟨⟨?_, hchild, ?_, ?_⟩, hgrow t'⟩
          · simp [hx, Phase.owns]
          · simp [hx]
          · simp [hx, Phase.pastSuper]
        · simpa [ht] using hgrow t' }

theorem mem_deliver {res : ℤ} {b : Activation}
    (h : b ∈ Vm.deliver res l) : ∃ b' ∈ l, b.cls = b'.cls ∧ b.phase = b'.phase := by
  cases l with
  | nil => cases h
  | cons a rest =>
    simp only [Vm.deliver] at h
    split at h
    · rcases mem_cons.mp h with rfl | h
      · exact ⟨a, by simp, rfl, rfl⟩
      · exact ⟨b, by simp [h], rfl, rfl⟩
    · exact ⟨b, h, rfl, rfl⟩

theorem ownedIn_deliver {res : ℤ} {r : ClassRef}
    (h : OwnedIn r l) : OwnedIn r (Vm.deliver res l) := by
  cases l with
  | nil => exact h
  | cons a rest =>
    simp only [Vm.deliver]
    split
    · obtain ⟨b, hb, hr, ho⟩ := h
      rcases mem_cons.mp hb with rfl | hb
      · exact ⟨_, mem_cons_self, hr, ho⟩
      · exact ⟨b, mem_cons_of_mem _ hb, hr, ho⟩
    · exact h

/-- The innermost call, which owns nothing, returns `res` to its caller. -/
theorem InitInv.pop {res : ℤ} (h : InitInv H g s)
    (hc : s.calls t = a :: rest) (hown : a.phase.owns = false)
    (hans : res = 0 → a.cls.dims = 0 → s.Answered a.cls rest) :
    InitInv H g { s with calls := update s.calls t (Vm.deliver res rest) } := by
  have hmem : ∀ t', ∀ b ∈ update s.calls t (Vm.deliver res rest) t',
      ∃ b' ∈ s.calls t', b.cls = b'.cls ∧ b.phase = b'.phase := by
    intro t' b hb
    rcases mem_update hb with ⟨rfl, hb'⟩ | ⟨-, hb⟩
    · obtain ⟨b', hb', hk⟩ := mem_deliver hb'
      exact ⟨b', by simp [hc, hb'], hk⟩
    · exact ⟨b, hb, rfl, rfl⟩
  exact
    { h with
      owner := fun t' b hb ho => by
        obtain ⟨b', hb', hcls, hph⟩ := hmem t' b hb
        rw [hcls]
        exact h.owner t' b' hb' (hph ▸ ho)
      owned := fun c hi => by
        rcases h.owned c hi with hf | hk
        · exact .inl hf
        · refine .inr ?_
          dsimp only
          by_cases ht : s.initializingThread ⟨c, 0⟩ = t
          · rw [ht, hc] at hk
            rw [ht, update_self]
            refine ownedIn_deliver ?_
            obtain ⟨b, hb, hr, ho⟩ := hk
            rcases mem_cons.mp hb with rfl | hb
            · simp [hown] at ho
            · exact ⟨b, hb, hr, ho⟩
          · simpa [ht] using hk
      pending := fun t' b hb hp => by
        obtain ⟨b', hb', hcls, hph⟩ := hmem t' b hb
        rw [hcls]
        exact h.pending t' b' hb' (hph ▸ hp)
      waiting := fun t' b hb hp => by
        obtain ⟨b', hb', hcls, hph⟩ := hmem t' b hb
        rw [hcls]
        exact h.waiting t' b' hb' (hph ▸ hp)
      stack := fun t' => by
        have hgrow : ∀ l, Stacked (StackInv H g s) l → Stacked (StackInv H g
            { s with calls := update s.calls t (Vm.deliver res rest) }) l :=
          fun l hl => hl.imp fun _ _ _ hp => hp.grows ⟨fun _ hc => ⟨hc, rfl⟩, fun _ hc => hc⟩
        by_cases ht : t' = t
        · subst ht
          simp only [update_self]
          have hst := h.stack t'
          rw [hc] at hst
          refine hgrow _ ?_
          cases rest with
          | nil => trivial
          | cons b callers =>
            simp only [Vm.deliver]
            split
            · refine ⟨⟨hst.2.1.distinct, hst.2.1.child, ?_, hst.2.1.past⟩, hst.2.2⟩
              intro hp hres p hsup
              obtain ⟨hcs, hd⟩ := hst.1.child b rfl hp
              obtain rfl : a.cls.base = p := Option.some.inj (hcs.symm.trans hsup)
              have hcls : a.cls = ⟨a.cls.base, 0⟩ := by
                cases hcls : a.cls
                simp_all
              have hlt := H.super_lt hsup
              have hready := hans (by simpa using hres) hd
              rw [hcls] at hready
              rcases hready with hr | hr | ⟨o, ho, hr, hown'⟩
              · exact .inl hr
              · exact .inr (.inl hr)
              · refine .inr (.inr ?_)
                rcases mem_cons.mp ho with rfl | ho
                · rw [hr] at hlt
                  exact absurd hlt (lt_irrefl _)
                · exact ⟨o, ho, hr, hown'⟩
            · exact hst.2
        · simpa [ht] using hgrow _ (h.stack t') }

/-- The innermost call finds its class owned by another thread and starts to wait. -/
theorem InitInv.wait (h : InitInv H g s)
    (hc : s.calls t = a :: rest) (hown : a.phase.owns = false) (hd : a.cls.dims = 0)
    (hst : s.state a.cls = .initializing) :
    InitInv H g { s with calls := update s.calls t (⟨a.cls, .waiting, none⟩ :: rest) } := by
  have hmem : ∀ t', ∀ b ∈ update s.calls t (⟨a.cls, .waiting, none⟩ :: rest) t',
      b = ⟨a.cls, .waiting, none⟩ ∨ b ∈ s.calls t' := by
    intro t' b hb
    rcases mem_update hb with ⟨rfl, hb'⟩ | ⟨-, hb'⟩
    · rcases mem_cons.mp hb' with hb' | hb'
      · exact .inl hb'
      · exact .inr (by simp [hc, hb'])
    · exact .inr hb'
  exact
    { h with
      owner := fun t' b hb ho => by
        rcases hmem t' b hb with rfl | hb
        · simp [Phase.owns] at ho
        · exact h.owner t' b hb ho
      owned := fun c hi => by
        rcases h.owned c hi with hf | ⟨b, hb, hr, ho⟩
        · exact .inl hf
        · refine .inr ⟨b, ?_, hr, ho⟩
          dsimp only
          by_cases ht : s.initializingThread ⟨c, 0⟩ = t
          · rw [ht, hc] at hb
            rw [ht, update_self]
            rcases mem_cons.mp hb with rfl | hb
            · simp [hown] at ho
            · exact mem_cons_of_mem _ hb
          · simpa [ht] using hb
      pending := fun t' b hb hp => by
        rcases hmem t' b hb with rfl | hb
        · simp [Phase.awaits] at hp
        · exact h.pending t' b hb hp
      waiting := fun t' b hb hp => by
        rcases hmem t' b hb with rfl | hb
        · exact ⟨hd, by simp [hst], by simp [hst]⟩
        · exact h.waiting t' b hb hp
      stack := fun t' => by
        have hgrow : ∀ l, Stacked (StackInv H g s) l → Stacked (StackInv H g
            { s with calls := update s.calls t (⟨a.cls, .waiting, none⟩ :: rest) }) l :=
          fun l hl => hl.imp fun _ _ _ hp => hp.grows ⟨fun _ hc => ⟨hc, rfl⟩, fun _ hc => hc⟩
        by_cases ht : t' = t
        · subst ht
          have hstk := h.stack t'
          rw [hc] at hstk
          simp only [update_self]
          refine hgrow _ ⟨⟨?_, hstk.1.child, ?_, ?_⟩, hstk.2⟩ <;> simp [Phase.owns, Phase.pastSuper]
        · simpa [ht] using hgrow _ (h.stack t') }

/-- No activation other than the innermost one of thread `t` owns `r`. -/
def Vm.OwnFree (s : Vm) (t : ℕ) (r : ClassRef) (rest : List Activation) : Prop :=
  (∀ t' ≠ t, ∀ b ∈ s.calls t', b.phase.owns → b.cls ≠ r) ∧ ∀ b ∈ rest, b.phase.owns → b.cls ≠ r

theorem InitInv.ownFree (h : InitInv H g s)
    (hc : s.calls t = a :: rest) (hown : a.phase.owns) : s.OwnFree t a.cls rest := by
  constructor
  · intro t' ht b hb ho hcls
    have h1 := (h.owner t a (by simp [hc]) hown).2.1
    have h2 := (h.owner t' b hb ho).2.1
    rw [hcls] at h2
    exact ht (h2.symm.trans h1)
  · have hst := h.stack t
    rw [hc] at hst
    exact hst.1.distinct hown

theorem InitInv.ownFree_of_state (h : InitInv H g s)
    (hc : s.calls t = a :: rest) (hst : s.state a.cls ≠ .initializing) :
    s.OwnFree t a.cls rest := by
  refine ⟨fun t' _ b hb ho hcls => hst ?_, fun b hb ho hcls => hst ?_⟩
  · rw [← hcls]
    exact (h.owner t' b hb ho).1
  · rw [← hcls]
    exact (h.owner t b (by simp [hc, hb]) ho).1

/-- The innermost call of thread `t` moves from `a` to `a'` and writes only the descriptor of
its own class and of the array classes over it. -/
structure Retop (s s' : Vm) (t : ℕ) (a a' : Activation) (rest : List Activation) : Prop where
  before : s.calls t = a :: rest
  calls : s'.calls = update s.calls t (a' :: rest)
  cls : a'.cls = a.cls
  dims : a.cls.dims = 0
  free : s.OwnFree t a.cls rest
  unfinished : s.state a.cls ≠ .initialized
  sound : s.state a.cls ≠ .linkageError
  arrayDims : s'.arrayDims = s.arrayDims
  state : ∀ c, ⟨c, 0⟩ ≠ a.cls → s'.state ⟨c, 0⟩ = s.state ⟨c, 0⟩
  otherBase : ∀ q, q.base ≠ a.cls.base → s'.state q = s.state q
  arrays : ∀ q, q.dims ≠ 0 → s'.state q = s.state q ∨ s'.state q ≠ .loaded
  thread : ∀ q, q ≠ a.cls → s'.initializingThread q = s.initializingThread q
  starts : ∀ q, q ≠ a.cls → s'.clinitStarts q = s.clinitStarts q
  failure : ∀ q, q ≠ a.cls → s'.failure q = s.failure q
  failureMono : s.failure a.cls ≠ none → s'.failure a.cls ≠ none
  left : s'.state a.cls ≠ .loaded ∧ s'.state a.cls ≠ .linked
  owner : a'.phase.owns → s'.state a.cls = .initializing ∧ s'.initializingThread a.cls = t
  owned : s'.state a.cls = .initializing →
    s'.failure a.cls ≠ none ∨ a'.phase.owns ∧ s'.initializingThread a.cls = t
  broken : s'.state a.cls = .linkageError → s'.failure a.cls ≠ none
  pending : a'.phase.awaits → s'.clinitStarts a.cls = 0
  once : s'.clinitStarts a.cls ≤ 1
  settled : s'.Failed a.cls → s.Failed a.cls ∨
    s'.state a.cls = .linkageError ∨ s'.state a.cls = .initialized
  result : a'.result = none

theorem Retop.keepsFailures {a a' : Activation}
    (k : Retop s s' t a a' rest) : KeepsFailures s s' := by
  intro hs
  have hown : ¬ s.Failed a.cls := by
    intro hf
    rcases (hs a.cls hf).2.2 k.dims with h | h
    · exact k.sound h
    · exact k.unfinished h
  have hiff : ∀ q, q ≠ a.cls → (s'.Failed q ↔ s.Failed q) := by
    intro q hq
    simp [Vm.Failed, k.failure q hq]
  refine ⟨fun q hq => ?_, fun q hq => ?_⟩
  · by_cases hqa : q = a.cls
    · subst hqa
      have hfin := (k.settled hq).resolve_left hown
      exact ⟨k.left.1, by simp [k.dims], fun _ => hfin⟩
    · obtain ⟨h1, h2, h3⟩ := hs q ((hiff q hqa).mp hq)
      rw [k.arrayDims]
      by_cases hd : q.dims = 0
      · have hst : s'.state q = s.state q := by
          obtain ⟨c, d⟩ := q
          obtain rfl : d = 0 := hd
          exact k.state c hqa
        rw [hst]
        exact ⟨h1, h2, h3⟩
      · refine ⟨?_, h2, fun h0 => absurd h0 hd⟩
        rcases k.arrays q hd with hst | hst
        · rw [hst]
          exact h1
        · exact hst
  · have hqa : q ≠ a.cls := by rintro rfl; exact hown hq
    exact (hiff q hqa).mpr hq

theorem Retop.grows {a a' : Activation} (k : Retop s s' t a a' rest) : Grows s s' where
  initialized c hc := by
    have hne : (⟨c, 0⟩ : ClassRef) ≠ a.cls := by
      intro hcls
      exact k.unfinished (hcls ▸ hc)
    exact ⟨(k.state c hne).trans hc, k.failure _ hne⟩
  failure c hc := by
    by_cases hcls : (⟨c, 0⟩ : ClassRef) = a.cls
    · rw [hcls] at hc ⊢
      exact k.failureMono hc
    · rw [k.failure _ hcls]
      exact hc

theorem InitInv.retop {a a' : Activation} (h : InitInv H g s) (k : Retop s s' t a a' rest)
    (hpast : g → a'.phase.pastSuper → ∀ p, H.superClass a.cls.base = some p →
      s.SuperReady ⟨p, 0⟩ rest) : InitInv H g s' := by
  have hrest : ∀ b ∈ rest, b ∈ s.calls t := fun b hb => by simp [k.before, hb]
  have hmem : ∀ t', ∀ b ∈ s'.calls t', t' = t ∧ b = a' ∨
      b ∈ s.calls t' ∧ (b.phase.owns → b.cls ≠ a.cls) := by
    intro t' b hb
    rw [k.calls] at hb
    rcases mem_update hb with ⟨rfl, hb'⟩ | ⟨ht, hb'⟩
    · rcases mem_cons.mp hb' with rfl | hb'
      · exact .inl ⟨rfl, rfl⟩
      · exact .inr ⟨hrest b hb', k.free.2 b hb'⟩
    · exact .inr ⟨hb', k.free.1 t' ht b hb'⟩
  have hbase : ∀ q : ClassRef, q.dims = 0 → q ≠ a.cls → s'.state q = s.state q := by
    rintro ⟨c, d⟩ hd hq
    obtain rfl : d = 0 := hd
    exact k.state c hq
  have hprim : ¬ H.isPrimitive a.cls.base := fun hp =>
    k.unfinished (h.primitive a.cls hp (by simp [k.dims]))
  refine ⟨?_, ?_, ?_, ?_, ?_, ?_, ?_, ?_, ?_, ?_⟩
  · intro t' b hb ho
    rcases hmem t' b hb with ⟨rfl, rfl⟩ | ⟨hb, hne⟩
    · rw [k.cls]
      exact ⟨(k.owner ho).1, (k.owner ho).2, k.dims⟩
    · obtain ⟨h1, h2, h3⟩ := h.owner t' b hb ho
      exact ⟨(hbase _ h3 (hne ho)).trans h1, (k.thread _ (hne ho)).trans h2, h3⟩
  · intro c hc
    by_cases hcls : (⟨c, 0⟩ : ClassRef) = a.cls
    · rw [hcls] at hc ⊢
      rcases k.owned hc with hf | ⟨ho, ht⟩
      · exact .inl hf
      · exact .inr ⟨a', by simp [ht, k.calls], k.cls, ho⟩
    · rw [k.failure _ hcls, k.thread _ hcls]
      rw [k.state c hcls] at hc
      rcases h.owned c hc with hf | ⟨b, hb, hr, ho⟩
      · exact .inl hf
      · refine .inr ⟨b, ?_, hr, ho⟩
        rw [k.calls]
        by_cases ht : s.initializingThread ⟨c, 0⟩ = t
        · rw [ht, k.before] at hb
          rw [ht, update_self]
          rcases mem_cons.mp hb with rfl | hb
          · exact absurd hr.symm hcls
          · exact mem_cons_of_mem _ hb
        · simpa [ht] using hb
  · intro c hc
    by_cases hcls : (⟨c, 0⟩ : ClassRef) = a.cls
    · rw [hcls] at hc ⊢
      exact k.broken hc
    · rw [k.failure _ hcls]
      exact h.broken c ((k.state c hcls).symm.trans hc)
  · intro c hc
    by_cases hcls : (⟨c, 0⟩ : ClassRef) = a.cls
    · rw [hcls] at hc
      exact absurd hc (not_or.mpr k.left)
    · rw [k.starts _ hcls]
      rw [k.state c hcls] at hc
      exact h.unstarted c hc
  · intro t' b hb hp
    rcases hmem t' b hb with ⟨rfl, rfl⟩ | ⟨hb, hne⟩
    · rw [k.cls]
      exact k.pending hp
    · have ho : b.phase.owns := by cases hph : b.phase <;> simp_all [Phase.awaits, Phase.owns]
      rw [k.starts _ (hne ho)]
      exact h.pending t' b hb hp
  · intro r
    by_cases hr : r = a.cls
    · rw [hr]
      exact k.once
    · rw [k.starts r hr]
      exact h.once r
  · intro t' b hb hp
    rcases hmem t' b hb with ⟨rfl, rfl⟩ | ⟨hb, -⟩
    · rw [k.cls]
      exact ⟨k.dims, k.left⟩
    · obtain ⟨hd, h1, h2⟩ := h.waiting t' b hb hp
      refine ⟨hd, ?_⟩
      by_cases hcls : b.cls = a.cls
      · rw [hcls]
        exact k.left
      · rw [hbase _ hd hcls]
        exact ⟨h1, h2⟩
  · intro q hp hq
    rw [k.otherBase q fun hb => hprim (hb ▸ hp)]
    exact h.primitive q hp hq
  · intro c hc
    rw [k.arrayDims]
    exact h.primitiveDims c hc
  · intro t'
    have hgrow : ∀ l, Stacked (StackInv H g s) l → Stacked (StackInv H g s') l :=
      fun l hl => hl.imp fun _ _ _ hp => hp.grows k.grows
    rw [k.calls]
    by_cases ht : t' = t
    · subst ht
      have hst := h.stack t'
      rw [k.before] at hst
      rw [update_self]
      refine ⟨⟨fun _ b hb ho => by rw [k.cls]; exact k.free.2 b hb ho, ?_, ?_, ?_⟩, hgrow _ hst.2⟩
      · rw [k.cls]
        exact hst.1.child
      · simp [k.result]
      · rw [k.cls]
        exact fun hG hp p hsup => (hpast hG hp p hsup).grows k.grows
    · simpa [ht] using hgrow _ (h.stack t')

end TraceJvm
