import TraceJvm.ClassLoading
import Mathlib.Data.List.Perm.Basic

/-! When `define_class` raises a `ClassCircularityError`. The set of inchoate classes is one for all
threads and loaders and knows names only. It tells a cycle from a class that happens to be loaded at
the same time as long as no two lookups load the same name. -/
namespace TraceJvm

open Transition List

def LoadFrame.lookedUp : LoadFrame → Option ClassName
  | .lookup f => some f.elem
  | .define _ => none

def LoaderThread.lookups (t : LoaderThread) : List ClassName := t.stack.filterMap LoadFrame.lookedUp

def LoaderVm.lookups (s : LoaderVm) : List ClassName :=
  s.current.lookups ++ s.others.flatMap LoaderThread.lookups

/-- The class that `loader` denotes by `n` is reached again: it is defined or looked up on the chain
of supertypes that leads to the definition on top of the stack. A definition belongs to the chain of
the definition below where the lookup in between has asked for it. -/
def ownChain (loader : ℕ) (n : ClassName) : List LoadFrame → Bool
  | .define d :: .lookup f :: below =>
      (d.loader = loader && d.key = n) ||
        (d.key = f.elem && ((f.loader = loader && f.elem = n) || ownChain loader n below))
  | .define d :: _ => d.loader = loader && d.key = n
  | _ => false

namespace LoaderVm

/-- Errors are raised exactly for cycles, and the set of inchoate classes is that of the lookups in
progress, so that a lookup that has ended leaves no trace in it. -/
def CircularityExact (s : LoaderVm) : Prop :=
  (∀ n, s.inchoate n = true ↔ n ∈ s.lookups) ∧
    ∀ c ∈ s.checks, (c.raised = true ↔ ownChain c.loader c.name c.stack = true)

/-- If the lookup has to load its class, nobody is loading a class of that name, and there is memory
for the call of `loadClass`. -/
def loadsAlone (s : LoaderVm) (full : ClassName) (loader : ℕ) (memory : Bool) : Bool :=
  match parseName full with
  | some (_, .named elem) =>
      (s.initiating loader elem).isSome || (!s.lookups.contains elem && (loader = 0 || memory))
  | _ => true

/-- The supertype `n` of the definition on top of the stack is being looked up if and only if it is
on the chain of the definition itself. -/
def chainLookedUp (s : LoaderVm) (loader : ℕ) (n : ClassName) : Bool :=
  s.lookups.contains n == ownChain loader n s.current.stack

def undisturbed (s : LoaderVm) : LoadEvent → Bool
  | .lookup full loader _ memory => s.loadsAlone full loader memory
  | .advance memory =>
      match s.current.stack, s.current.result with
      | .define f :: _, none =>
          match f.rest with
          | [] => true
          | (i, n) :: _ =>
              s.chainLookedUp f.loader n &&
                (s.lookups.contains n || f.resolved.contains i || s.loadsAlone n f.loader memory)
      | _, _ => true
  | _ => true

structure CircularityInv (s : LoaderVm) : Prop where
  nodup : s.lookups.Nodup
  exact : s.CircularityExact

variable {s s' : LoaderVm}

theorem CircularityInv.congr (h : s.CircularityInv) (hn : s'.lookups = s.lookups)
    (hi : s'.inchoate = s.inchoate) (hc : s'.checks = s.checks) : s'.CircularityInv := by
  refine ⟨by rw [hn]; exact h.nodup, ?_, ?_⟩
  · rw [hn, hi]
    exact h.exact.1
  · rw [hc]
    exact h.exact.2

theorem CircularityInv.perm (h : s.CircularityInv) (hn : s'.lookups.Perm s.lookups)
    (hi : s'.inchoate = s.inchoate) (hc : s'.checks = s.checks) : s'.CircularityInv := by
  refine ⟨hn.nodup_iff.2 h.nodup, ?_, ?_⟩
  · intro n
    rw [hi, hn.mem_iff]
    exact h.exact.1 n
  · rw [hc]
    exact h.exact.2

theorem lookups_of_stack {fs : List LoadFrame} (h : s.current.stack = fs) :
    s.lookups = fs.filterMap LoadFrame.lookedUp ++ s.others.flatMap LoaderThread.lookups := by
  rw [lookups, LoaderThread.lookups, h]

variable {below : List LoadFrame} {f : DefineFrame}

theorem lookups_pop_define
    (h : s.current.stack = .define f :: below) : s.pop.lookups = s.lookups := by
  rw [lookups_of_stack h]
  show (s.current.stack.tail).filterMap _ ++ _ = _
  rw [h]
  rfl

theorem lookups_pop_lookup {f : LookupFrame}
    (h : s.current.stack = .lookup f :: below) : s.lookups = f.elem :: s.pop.lookups := by
  rw [lookups_of_stack h]
  show _ = f.elem :: ((s.current.stack.tail).filterMap _ ++ _)
  rw [h]
  rfl

/-- A lookup that loads its class alone enters its name and nothing else. -/
theorem CircularityInv.lookupClass (h : s.CircularityInv) {full : ClassName} {loader : ℕ}
    {raise memory : Bool} (hok : s.loadsAlone full loader memory = true) :
    (s.lookupClass full loader raise memory).CircularityInv := by
  unfold LoaderVm.lookupClass
  unfold loadsAlone at hok
  split
  · exact h.congr rfl rfl rfl
  · exact h.congr rfl rfl rfl
  · rename_i dims elem hparse
    rw [hparse] at hok
    split
    · exact h.congr rfl rfl rfl
    · rename_i hnone
      simp only [hnone, Option.isSome_none, Bool.false_or, Bool.and_eq_true, Bool.not_eq_true',
        contains_eq_mem, decide_eq_false_iff_not, Bool.or_eq_true, decide_eq_true_eq] at hok
      obtain ⟨hfresh, hmem⟩ := hok
      rw [if_pos hmem]
      refine ⟨?_, ?_, h.exact.2⟩
      · exact nodup_cons.2 ⟨hfresh, h.nodup⟩
      · intro n
        show Function.update s.inchoate elem true n = true ↔ n ∈ elem :: s.lookups
        rw [mem_cons, ← h.exact.1 n]
        by_cases hn : n = elem
        · simp [hn]
        · simp [hn]

theorem CircularityInv.defineClass (h : s.CircularityInv) (loader : ℕ) (key : ClassName)
    (bytes : ClassBytes) : (s.defineClass loader key bytes).CircularityInv := by
  unfold LoaderVm.defineClass
  split
  · exact h.congr rfl rfl rfl
  · split
    · exact h.congr rfl rfl rfl
    · exact h.congr rfl rfl rfl

theorem CircularityInv.failDefine (h : s.CircularityInv)
    (hstack : s.current.stack = .define f :: below) (e : Option LoadError) :
    (s.failDefine e).CircularityInv :=
  h.congr (lookups_pop_define hstack) rfl rfl

theorem CircularityInv.replaceDefine (h : s.CircularityInv) (hstack : s.current.stack = .define f ::
    below) (g : DefineFrame) :
    (s.pop.push (.define g)).CircularityInv :=
  h.congr (lookups_pop_define hstack) rfl rfl

theorem CircularityInv.supertypeResolved (h : s.CircularityInv) (hstack : s.current.stack =
    .define f :: below) (i : ℕ) (n : ClassName)
    (more : List (ℕ × ClassName)) (r : Option RuntimeClass) :
    (s.supertypeResolved f i n more r).CircularityInv := by
  cases r with
  | none => exact h.failDefine hstack _
  | some c =>
    simp only [LoaderVm.supertypeResolved]
    split
    · exact h.replaceDefine hstack _
    · exact h.failDefine hstack _

/-- The check for a supertype is recorded, and it raises an error where the chain is a cycle. -/
theorem CircularityInv.resolveSupertype (h : s.CircularityInv) (hstack : s.current.stack =
    .define f :: below) {i : ℕ} {n : ClassName}
    (more : List (ℕ × ClassName)) {memory : Bool} (hchain : s.chainLookedUp f.loader n = true)
    (hok : s.lookups.contains n = true ∨ f.resolved.contains i = true ∨
      s.loadsAlone n f.loader memory = true) :
    (s.resolveSupertype f i n more memory).CircularityInv := by
  have hraised : s.inchoate n = true ↔ ownChain f.loader n s.current.stack = true := by
    rw [h.exact.1 n, ← contains_iff_mem, beq_iff_eq.1 hchain]
  unfold LoaderVm.resolveSupertype
  generalize hs : { s with
    checks := ⟨f.loader, n, s.current.stack, s.inchoate n⟩ :: s.checks } = t
  have ht : t.CircularityInv := by
    subst hs
    refine ⟨h.nodup, h.exact.1, ?_⟩
    intro c hc
    obtain rfl | hc := mem_cons.1 hc
    · exact hraised
    · exact h.exact.2 c hc
  have hstack' : t.current.stack = .define f :: below := by
    subst hs
    exact hstack
  show CircularityInv (if t.inchoate n = true then _ else _)
  split
  · exact ht.failDefine hstack' _
  · rename_i hin
    split
    · exact ht.replaceDefine hstack' _
    · rename_i hres
      have hnot : ¬ s.lookups.contains n = true := by
        rw [contains_iff_mem, ← h.exact.1 n]
        subst hs
        exact hin
      apply ht.lookupClass
      subst hs
      obtain hl | hr | hl := hok
      · exact absurd hl hnot
      · exact absurd (contains_iff_mem.1 hr) hres
      · exact hl

theorem CircularityInv.finishDefine (h : s.CircularityInv) (hstack : s.current.stack = .define f ::
    below) :
    (s.finishDefine f).CircularityInv :=
  h.congr (lookups_pop_define hstack) rfl rfl

theorem CircularityInv.leaveLookup (h : s.CircularityInv) {f : LookupFrame}
    (hstack : s.current.stack = .lookup f :: below) :
    { s.pop with inchoate := Function.update s.inchoate f.elem false }.CircularityInv := by
  have hlookups := lookups_pop_lookup hstack
  have hnodup := h.nodup
  rw [hlookups, nodup_cons] at hnodup
  refine ⟨hnodup.2, ?_, h.exact.2⟩
  intro n
  show Function.update s.inchoate f.elem false n = true ↔ n ∈ s.pop.lookups
  by_cases hn : n = f.elem
  · subst hn
    simpa using hnodup.1
  · rw [Function.update_of_ne hn, h.exact.1 n, hlookups, mem_cons]
    simp [hn]

theorem CircularityInv.start : LoaderVm.start.CircularityInv where
  nodup := nodup_nil
  exact := ⟨fun n => by simp [LoaderVm.start, lookups, LoaderThread.lookups, LoaderThread.idle],
    fun c hc => by simp [LoaderVm.start] at hc⟩

end LoaderVm

theorem LoadFrame.lookedUp_suspend (f : LoadFrame) : f.suspend.lookedUp = f.lookedUp := by
  cases f <;> rfl

theorem LoaderThread.lookups_suspend (t : LoaderThread) :
    { t with stack := t.stack.map LoadFrame.suspend : LoaderThread }.lookups = t.lookups := by
  show (t.stack.map LoadFrame.suspend).filterMap LoadFrame.lookedUp = _
  rw [filterMap_map]
  exact filterMap_congr fun f _ => f.lookedUp_suspend

/-- An element of a list trades places with a value beside the list. -/
theorem flatMap_set_perm {α β : Type*} {f : α → List β} {xs : List α} {i : ℕ} {x y : α}
    (h : xs[i]? = some x) :
    (f x ++ (xs.set i y).flatMap f).Perm (f y ++ xs.flatMap f) := by
  induction xs generalizing i with
  | nil => simp at h
  | cons z zs ih =>
    cases i with
    | zero =>
      obtain rfl : z = x := by simpa using h
      simp only [set_cons_zero, flatMap_cons]
      rw [← append_assoc, ← append_assoc]
      exact perm_append_comm.append_right _
    | succ i =>
      have h' : zs[i]? = some x := by simpa using h
      simp only [set_cons_succ, flatMap_cons]
      have hfront : (f x ++ (f z ++ (zs.set i y).flatMap f)).Perm
          (f z ++ (f x ++ (zs.set i y).flatMap f)) := perm_append_comm_assoc _ _ _
      have hback : (f z ++ (f y ++ zs.flatMap f)).Perm (f y ++ (f z ++ zs.flatMap f)) :=
        perm_append_comm_assoc _ _ _
      exact hfront.trans (((ih h').append_left _).trans hback)

namespace LoaderGraph

open LoaderVm

variable {W : LoaderGraph} {s s' : LoaderVm}

theorem circularityInv_finishLookup (h : s.CircularityInv) {f : LookupFrame}
    {below : List LoadFrame} (hstack : s.current.stack = .lookup f :: below)
    (cls kept : Option RuntimeClass) (dims : ℕ) :
    (W.finishLookup s f cls kept dims).CircularityInv := by
  have hleft := h.leaveLookup hstack
  unfold finishLookup
  generalize { s.pop with inchoate := Function.update s.inchoate f.elem false } = t at hleft
  cases cls with
  | none =>
    simp only
    split
    · exact hleft.congr rfl rfl rfl
    · split
      · exact hleft.congr rfl rfl rfl
      · exact hleft.congr rfl rfl rfl
  | some c =>
    simp only [markInitiating]
    cases W.chainTo (t.loaderOf c) f.loader f.loader with
    | none | some chain => exact hleft.congr rfl rfl rfl

theorem circularityInv_advance (h : s.CircularityInv) {memory : Bool}
    (hok : s.undisturbed (.advance memory) = true) (hstep : W.advance s memory = some s') :
    s'.CircularityInv := by
  unfold advance at hstep
  unfold undisturbed at hok
  split at hstep
  · rename_i f below hstack hresult
    simp only [hstack, hresult] at hok
    split at hstep
    · cases hstep
      exact h.finishDefine hstack
    · rename_i i n more hrest
      rw [hrest] at hok
      cases hstep
      simp only [Bool.and_eq_true, Bool.or_eq_true] at hok
      exact h.resolveSupertype hstack more hok.1 (by tauto)
  · rename_i f below r hstack hresult
    split at hstep
    · simp at hstep
    · cases hstep
      exact h.supertypeResolved hstack _ _ _ _
  · rename_i f below hstack hresult
    split at hstep
    · simp at hstep
    · split at hstep
      · cases hstep
        exact circularityInv_finishLookup h hstack _ _ _
      · cases hstep
        exact h.defineClass _ _ _
  · rename_i f below r hstack hresult
    split at hstep
    · simp at hstep
    · cases hstep
      exact circularityInv_finishLookup h hstack _ _ _
  · simp at hstep

theorem circularityInv_loadReturns (h : s.CircularityInv) {f : LookupFrame}
    {below : List LoadFrame} (hstack : s.current.stack = .lookup f :: below) {outcome : LoadOutcome}
    {dims : ℕ} {cls : Option RuntimeClass}
    (hstep : W.loadReturns s f outcome dims cls = some s') : s'.CircularityInv := by
  cases outcome with
  | threw =>
    cases hstep
    have hraise : (s.raise (s.current.exception.getD .thrown)).CircularityInv :=
      h.congr rfl rfl rfl
    exact circularityInv_finishLookup hraise hstack _ _ _
  | returned mirror =>
    simp only [loadReturns, Option.ite_none_left_eq_some, Option.ite_none_right_eq_some] at hstep
    obtain ⟨-, -, hstep⟩ := hstep
    cases hstep
    exact circularityInv_finishLookup h hstack _ _ _

theorem circularityInv_loadStep {e : LoadEvent} (h : s.CircularityInv)
    (hok : s.undisturbed e = true) (hstep : W.loadStep s e = some s') : s'.CircularityInv := by
  unfold loadStep at hstep
  split at hstep
  · simp at hstep
  cases e with
  | lookup full loader raise memory =>
    simp only [Option.ite_none_right_eq_some] at hstep
    obtain ⟨-, hstep⟩ := hstep
    cases hstep
    exact h.lookupClass hok
  | define loader key bytes =>
    simp only [Option.ite_none_right_eq_some] at hstep
    obtain ⟨-, hstep⟩ := hstep
    cases hstep
    exact h.defineClass _ _ _
  | advance memory => exact circularityInv_advance h hok hstep
  | loadReturns outcome dims cls =>
    simp only at hstep
    split at hstep
    · rename_i f below hstack
      split at hstep
      · simp at hstep
      · exact circularityInv_loadReturns h hstack hstep
    · simp at hstep
  | catchException =>
    simp only [Option.ite_none_right_eq_some] at hstep
    obtain ⟨-, hstep⟩ := hstep
    cases hstep
    exact h.congr rfl rfl rfl
  | spawn =>
    cases hstep
    refine h.congr ?_ rfl rfl
    simp [lookups, LoaderThread.lookups, LoaderThread.idle]
  | switch i =>
    simp only at hstep
    split at hstep
    · simp at hstep
    · rename_i t ht
      simp only [Option.ite_none_right_eq_some] at hstep
      obtain ⟨-, hstep⟩ := hstep
      cases hstep
      refine h.perm ?_ rfl rfl
      show (t.lookups ++ (s.others.set i _).flatMap LoaderThread.lookups).Perm _
      refine (flatMap_set_perm ht).trans ?_
      rw [LoaderThread.lookups_suspend]
      exact List.Perm.refl _

/-- In a run in which lookups of one name do not meet, a `ClassCircularityError` is raised exactly
for a class whose definition is reached again through its own supertypes, and the set of inchoate
classes holds the lookups in progress. -/
theorem circularity_exact (W : LoaderGraph) {s : LoaderVm}
    (h : Runs W.loadStep (fun v e => v.undisturbed e = true) LoaderVm.start s) :
    s.CircularityExact :=
  (h.invariant CircularityInv CircularityInv.start fun _ _ _ hinv hok hstep =>
    circularityInv_loadStep hinv hok hstep).exact

def twoLoaders : LoaderGraph where
  parent := fun _ => 0
  parent_lt := fun _ h => Nat.pos_of_ne_zero h
  classpath := []

def subclassOfA (name : ClassName) : ClassBytes where
  wellFormed := true
  name := name
  superClass := some (1, ['A'])
  interfaces := []
  permittedSubclasses := none

/-- `A` extends `A`: its `loadClass` defines it and the error is raised. -/
def selfExtension : List LoadEvent :=
  [.lookup ['A'] 1 true true, .define 1 ['A'] (subclassOfA ['A']), .advance true]

theorem circularity_exact_selfExtension :
    ∃ s, checkedRun twoLoaders.loadStep LoaderVm.undisturbed LoaderVm.start selfExtension = some s ∧
      s.CircularityExact ∧
      s.current.exception = some (.classCircularityError ['A']) :=
  ⟨_, rfl, circularity_exact twoLoaders (runs_of_checkedRun (w := selfExtension) rfl), rfl⟩

/-- One thread looks up `A` through a loader whose `loadClass` waits. Meanwhile another thread
defines `B`, a subclass of `A`, in another loader. -/
def unrelatedDefinition : List LoadEvent :=
  [.spawn, .lookup ['A'] 1 false true, .switch 0, .define 2 ['B'] (subclassOfA ['B']),
    .advance true]

theorem circularity_otherThread :
    ¬ ∀ (W : LoaderGraph) (s : LoaderVm), Reachable W.loadStep LoaderVm.start s →
      s.CircularityExact := by
  intro h
  have hrun : ∃ s, run twoLoaders.loadStep LoaderVm.start unrelatedDefinition = some s ∧
      ∃ c ∈ s.checks, c.raised = true ∧ ownChain c.loader c.name c.stack = false :=
    ⟨_, rfl, _, mem_cons_self, rfl, rfl⟩
  obtain ⟨s, hs, c, hc, hraised, hown⟩ := hrun
  have := ((h twoLoaders s (reachable_of_run hs)).2 c hc).1 hraised
  rw [hown] at this
  exact Bool.false_ne_true this

end LoaderGraph

end TraceJvm
