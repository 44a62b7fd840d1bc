import TraceJvm.ClassLookup
import Mathlib.Algebra.Order.BigOperators.Group.List
import Mathlib.Tactic.Ring

/-! The native part of class loading ends. A lookup of the bootstrap loader defines the class and
with it looks up the supertypes, and a class file is not read again before its lookup is over. What
remains to be done is the work of the unread class files and of the definitions in progress. -/
namespace TraceJvm

open Transition List

def ClassBytes.work (b : ClassBytes) : ℕ := 3 * b.supertypes.length + 2

def LoaderVm.unread (s : LoaderVm) (n : ClassName) : Bool :=
  !s.inchoate n && (s.initiating 0 n).isNone

def pendingWork : List LoadFrame → ℕ
  | [] => 0
  | .lookup f :: below => if f.loader = 0 then pendingWork below else 0
  | .define f :: below => 3 * f.rest.length + 1 + pendingWork below

namespace LoaderGraph

variable (W : LoaderGraph)

def unreadWork (s : LoaderVm) : ℕ :=
  (W.classpath.map fun p => if s.unread p.1 then p.2.work else 0).sum

def workLeft (s : LoaderVm) : ℕ := W.unreadWork s + pendingWork s.current.stack

variable {W} {s s' t : LoaderVm}

theorem unreadWork_le (h : ∀ n, s'.unread n = true → s.unread n = true) :
    W.unreadWork s' ≤ W.unreadWork s := by
  unfold unreadWork
  apply sum_le_sum
  intro p _
  by_cases hp : s'.unread p.1 = true
  · simp [hp, h _ hp]
  · simp [hp]

/-- Reading a class file takes its work out of the work that is left. -/
theorem unreadWork_read {n : ClassName} {bytes : ClassBytes}
    (hfile : OrderedMap.get W.classpath n = some bytes)
    (h : ∀ m, s'.unread m = true → s.unread m = true) (hn : s.unread n = true)
    (hn' : s'.unread n = false) : W.unreadWork s' + bytes.work ≤ W.unreadWork s := by
  unfold unreadWork
  have hmem := OrderedMap.mem_of_get hfile
  generalize W.classpath = files at hmem
  have hle : ∀ p : ClassName × ClassBytes, (if s'.unread p.1 then p.2.work else 0) ≤
      if s.unread p.1 then p.2.work else 0 := by
    intro p
    by_cases hp : s'.unread p.1 = true
    · simp [hp, h _ hp]
    · simp [hp]
  induction files with
  | nil => simp at hmem
  | cons p files ih =>
    simp only [map_cons, sum_cons]
    obtain rfl | hmem := mem_cons.1 hmem
    · have hrest : (files.map fun p => if s'.unread p.1 then p.2.work else 0).sum ≤
          (files.map fun p => if s.unread p.1 then p.2.work else 0).sum :=
        sum_le_sum fun p _ => hle p
      simp only [hn, hn', Bool.false_eq_true, if_false, if_true]
      omega
    · have := ih hmem
      have := hle p
      omega

theorem loadStep_advance (h : s.crashed = false) (memory : Bool) :
    W.loadStep s (.advance memory) = W.advance s memory := by
  simp [loadStep, h]

theorem Returns.advance (next : Bool → LoaderVm)
    (hstep : ∀ memory, W.advance s memory = some (next memory))
    (hnext : ∀ memory, W.Returns (next memory)) : W.Returns s := by
  by_cases hc : s.crashed = true
  · exact .stop (.inl hc)
  · refine .step next (fun memory => ?_) hnext
    rw [loadStep_advance (by simpa using hc)]
    exact hstep memory

variable {below : List LoadFrame} {f : DefineFrame}

theorem accepts_none_of_definesFor (h : DefinesFor f below) : s.Accepts none below := by
  match below, h with
  | [], _ => trivial
  | .lookup _ :: _, _ => simp [LoaderVm.Accepts]
  | .define _ :: _, h => exact h.elim

/-- A lookup without a class hands its failure on, or stops the machine. -/
theorem returns_finishLookup_none {f : LookupFrame} (hstack : s.current.stack = .lookup f :: below)
    (hbelow : ∀ t : LoaderVm, t.current.stack = below → W.Returns (t.deliver none)) (dims : ℕ) :
    W.Returns (W.finishLookup s f none none dims) := by
  have htail : s.current.stack.tail = below := by
    rw [hstack]
    rfl
  have hanswer : ∀ (t : LoaderVm) (a : LookupAnswer), t.current.stack = below →
      a.result.toClass = none → W.Returns (t.answer a) := by
    intro t a ht ha
    have := hbelow { t with answers := a :: t.answers } ht
    rw [← ha] at this
    exact this
  have hmissing : ∀ e, (missingResult f.raise e).toClass = none := by
    intro e
    unfold missingResult
    split <;> rfl
  simp only [finishLookup]
  split
  · exact hanswer _ _ htail (hmissing _)
  · split
    · exact .stop (.inl rfl)
    · exact hanswer _ _ htail (hmissing _)

/-- A call that gives up returns to its native callers, which give up too. -/
theorem returns_deliver_none (hok : StackOk s.current.stack)
    (hacc : s.Accepts none s.current.stack) : W.Returns (s.deliver none) := by
  generalize hfs : s.current.stack = fs at hok hacc
  induction fs generalizing s with
  | nil => exact .stop (.inr (by simp [LoaderVm.deliver, LoaderThread.inJava, hfs]))
  | cons f below ih =>
    cases f with
    | define f =>
      obtain ⟨⟨i, n⟩, more, hrest⟩ := exists_cons_of_ne_nil hacc
      have hresult : (s.deliver none).current.result = some none := by
        simp [LoaderVm.deliver, LoaderThread.inJava, hfs]
      refine Returns.advance (fun _ => (s.deliver none).failDefine s.current.exception)
        (fun memory => ?_) fun _ => ?_
      · simp only [advance, hresult, show (s.deliver none).current.stack = _ from hfs, hrest]
        rfl
      · apply ih
        · show s.current.stack.tail = below
          rw [hfs]
          rfl
        · exact hok.2.2
        · exact accepts_none_of_definesFor hok.2.1
    | lookup f =>
      by_cases hzero : f.loader = 0
      · have hresult : (s.deliver none).current.result = some none := by
          simp [LoaderVm.deliver, LoaderThread.inJava, hfs, hzero]
        refine Returns.advance (fun _ => W.finishLookup (s.deliver none) f none none f.dims)
          (fun memory => ?_) fun _ => ?_
        · simp only [advance, hresult, show (s.deliver none).current.stack = _ from hfs, hzero]
          rfl
        · have hfs' : (s.deliver none).current.stack = .lookup f :: below := hfs
          apply returns_finishLookup_none hfs'
          intro t ht
          exact ih ht hok.2.2 (LoaderVm.accepts_of_waiting hok.2.1)
      · exact .stop (.inr (by simp [LoaderVm.deliver, LoaderThread.inJava, hfs, hzero]))

theorem returns_failDefine
    (hstack : s.current.stack = .define f :: below) (hok : StackOk s.current.stack)
    (e : Option LoadError) : W.Returns (s.failDefine e) := by
  have htail : s.current.stack.tail = below := by
    rw [hstack]
    rfl
  rw [hstack] at hok
  apply returns_deliver_none
  · show StackOk s.current.stack.tail
    rw [htail]
    exact hok.2.2
  · show LoaderVm.Accepts _ none s.current.stack.tail
    rw [htail]
    exact accepts_none_of_definesFor hok.2.1

/-- A native call in progress with less than `m` to do returns. -/
def ReturnsBelow (W : LoaderGraph) (m : ℕ) : Prop :=
  ∀ (s : LoaderVm) (f : DefineFrame) (below : List LoadFrame),
    s.current.stack = .define f :: below → StackOk s.current.stack → s.current.result = none →
    W.workLeft s < m → W.Returns s

/-- The definition on top of the stack goes on behind its next supertype. -/
theorem returns_nextSupertype {m : ℕ} (ih : ReturnsBelow W m) {f g : DefineFrame}
    (hstack : s.current.stack = .define f :: below)
    (hok : StackOk s.current.stack) (hm : W.workLeft s < m + 3) {p : ℕ × ClassName}
    (hrest : f.rest = p :: g.rest) (hloader : g.loader = f.loader) (hkey : g.key = f.key) :
    W.Returns (s.pop.push (.define g)) := by
  have hstack' : (s.pop.push (.define g)).current.stack = .define g :: below := by
    show _ :: s.current.stack.tail = _
    rw [hstack]
    rfl
  rw [hstack] at hok
  refine ih _ g below hstack' ?_ rfl ?_
  · rw [hstack']
    refine ⟨?_, ?_, hok.2.2⟩
    · intro q hq
      apply hok.1 q
      rw [hrest]
      exact mem_cons_of_mem _ hq
    · have hfor := hok.2.1
      unfold DefinesFor at hfor ⊢
      rw [hloader, hkey]
      exact hfor
  · have hunread : W.unreadWork (s.pop.push (.define g)) = W.unreadWork s := rfl
    unfold workLeft at hm ⊢
    rw [hstack', hunread]
    rw [hstack] at hm
    simp only [pendingWork, hrest, length_cons] at hm ⊢
    omega

/-- A class is delivered to a caller that waits for it. -/
theorem returns_deliver_some {m : ℕ} (ih : ReturnsBelow W m) (hok : StackOk s.current.stack)
    (hw : Waiting s.current.stack) (hm : W.workLeft s < m + 3) (c : RuntimeClass) :
    W.Returns (s.deliver (some c)) := by
  match hfs : s.current.stack with
  | [] => exact .stop (.inr (by simp [LoaderVm.deliver, LoaderThread.inJava, hfs]))
  | .lookup f :: below =>
    rw [hfs] at hw
    have hne : f.loader ≠ 0 := hw
    exact .stop (.inr (by simp [LoaderVm.deliver, LoaderThread.inJava, hfs, hne]))
  | .define f :: below =>
    rw [hfs] at hw
    obtain ⟨⟨i, n⟩, more, hrest⟩ := exists_cons_of_ne_nil hw
    have hfs' : (s.deliver (some c)).current.stack = .define f :: below := hfs
    have hresult : (s.deliver (some c)).current.result = some (some c) := by
      simp [LoaderVm.deliver, LoaderThread.inJava, hfs]
    refine Returns.advance (fun _ => (s.deliver (some c)).supertypeResolved f i n more (some c))
      (fun memory => ?_) fun _ => ?_
    · simp only [advance, hresult, hfs', hrest]
    · simp only [LoaderVm.supertypeResolved]
      split
      · exact returns_nextSupertype ih hfs' hok hm hrest rfl rfl
      · exact returns_failDefine hfs' hok _

theorem parseName_plain {n : ClassName} (h : n.head? ≠ some '[') :
    parseName n = none ∨ parseName n = some (0, .named n) := by
  have hdims : n.takeWhile (· = '[') = [] := by
    cases n with
    | nil => rfl
    | cons c cs =>
      have hc : c ≠ '[' := by simpa using h
      simp [hc]
  unfold parseName
  simp only [hdims, length_nil, drop_zero]
  split
  · exact .inl rfl
  · exact .inr rfl

/-- A bootstrap lookup that has just begun reads its class file. -/
theorem returns_bootstrapLookup {m : ℕ} (ih : ReturnsBelow W m)
    (hW : ∀ p ∈ W.classpath, p.2.plainSupertypes = true) {f : LookupFrame}
    (hstack : s.current.stack = .lookup f :: below) (hok : StackOk s.current.stack)
    (hzero : f.loader = 0) (hresult : s.current.result = none)
    (hm : ∀ bytes, OrderedMap.get W.classpath f.elem = some bytes →
      W.unreadWork s + bytes.work + pendingWork below ≤ m) : W.Returns s := by
  cases hfile : OrderedMap.get W.classpath f.elem with
  | none =>
    refine Returns.advance (fun _ => W.finishLookup s f none none f.dims) (fun memory => ?_)
      fun _ => ?_
    · simp only [advance, hstack, hresult, hzero, ne_eq, not_true, if_false, hfile]
    · rw [hstack] at hok
      apply returns_finishLookup_none hstack
      intro t ht
      apply returns_deliver_none
      · rw [ht]
        exact hok.2.2
      · rw [ht]
        exact LoaderVm.accepts_of_waiting hok.2.1
  | some bytes =>
    have hnone : ∀ e, W.Returns ((s.raise e).deliver none) := by
      intro e
      have hok' : StackOk (s.raise e).current.stack := hok
      apply returns_deliver_none hok'
      show LoaderVm.Accepts _ none s.current.stack
      rw [hstack]
      simp [LoaderVm.Accepts]
    refine Returns.advance (fun _ => s.defineClass 0 f.elem bytes) (fun memory => ?_) fun _ => ?_
    · simp only [advance, hstack, hresult, hzero, ne_eq, not_true, if_false, hfile]
    · unfold LoaderVm.defineClass
      split
      · exact hnone _
      · split
        · refine ih _ _ _ rfl ⟨?_, ?_, hok⟩ rfl ?_
          · intro p hp
            have := all_eq_true.1 (hW _ (OrderedMap.mem_of_get hfile)) p hp
            simpa using this
          · rw [hstack]
            exact fun _ => ⟨rfl, rfl⟩
          · have hle := hm bytes hfile
            have hpush : ∀ g, pendingWork (s.push (.define g)).current.stack =
                3 * g.rest.length + 1 + pendingWork below := by
              intro g
              show pendingWork (.define g :: s.current.stack) = _
              rw [hstack]
              simp [pendingWork, hzero]
            have hunread : ∀ g, W.unreadWork (s.push g) = W.unreadWork s := fun _ => rfl
            rw [workLeft, hpush, hunread]
            unfold ClassBytes.work at hle
            simp only
            omega
        · exact hnone _

/-- A bootstrap lookup whose class has been defined hands it on. -/
theorem returns_bootstrapFound {m : ℕ} (ih : ReturnsBelow W m) {f : LookupFrame}
    (hstack : s.current.stack = .lookup f :: below)
    (hok : StackOk s.current.stack) (hzero : f.loader = 0) {c : RuntimeClass}
    (hresult : s.current.result = some (some c)) (hrec : (s.initiating 0 f.elem).isSome = true)
    (hm : W.workLeft s < m + 3) : W.Returns s := by
  have htail : s.current.stack.tail = below := by
    rw [hstack]
    rfl
  refine Returns.advance (fun _ => W.finishLookup s f (some c) (some c) f.dims) (fun memory => ?_)
    fun _ => ?_
  · simp only [advance, hstack, hresult, hzero, ne_eq, not_true, if_false]
  · simp only [finishLookup, markInitiating]
    cases W.chainTo _ f.loader f.loader with
    | none => exact .stop (.inl rfl)
    | some chain =>
      rw [hstack] at hok
      have hdeliver : ∀ (t : LoaderVm) (a : LookupAnswer), t.current.stack = below →
          (∀ n, t.unread n = true → s.unread n = true) → a.result.toClass = some (c.addDims f.dims) →
          W.Returns (t.answer a) := by
        intro t a ht hunread ha
        have hm' : W.workLeft { t with answers := a :: t.answers } < m + 3 := by
          have hle : W.unreadWork { t with answers := a :: t.answers } ≤ W.unreadWork s :=
            unreadWork_le hunread
          have hpend : pendingWork s.current.stack = pendingWork below := by
            rw [hstack]
            simp [pendingWork, hzero]
          unfold workLeft at hm ⊢
          show _ + pendingWork t.current.stack < _
          rw [ht]
          omega
        have := returns_deliver_some (s := { t with answers := a :: t.answers }) ih
          (by rw [show _ = below from ht]; exact hok.2.2)
          (by rw [show _ = below from ht]; exact hok.2.1) hm' (c.addDims f.dims)
        rw [← ha] at this
        exact this
      apply hdeliver _ _ htail
      · intro n hn
        simp only [LoaderVm.unread, Bool.and_eq_true, Bool.not_eq_true',
          Option.isNone_iff_eq_none] at hn ⊢
        obtain ⟨hin, hinit⟩ := hn
        have hinit' : s.initiating 0 n = none := by
          split at hinit
          · simp at hinit
          · exact hinit
        have hne : n ≠ f.elem := by
          rintro rfl
          rw [hinit'] at hrec
          simp at hrec
        rw [Function.update_of_ne hne] at hin
        exact ⟨hin, hinit'⟩
      · rfl

/-- The end of a definition. -/
theorem returns_finishDefine {m : ℕ} (ih : ReturnsBelow W m) (hstack : s.current.stack =
    .define f :: below)
    (hok : StackOk s.current.stack) (hm : W.workLeft s < m + 3) :
    W.Returns (s.finishDefine f) := by
  rw [hstack] at hok
  have htail : (s.finishDefine f).current.stack = below := by
    show s.current.stack.tail = below
    rw [hstack]
    rfl
  have hunread : W.unreadWork (s.finishDefine f) ≤ W.unreadWork s := by
    apply unreadWork_le
    intro n hn
    simp only [LoaderVm.unread, Bool.and_eq_true, Option.isNone_iff_eq_none] at hn ⊢
    obtain ⟨hin, hinit⟩ := hn
    refine ⟨hin, ?_⟩
    change LoaderVm.enter s.initiating _ _ _ 0 n = none at hinit
    unfold LoaderVm.enter at hinit
    split at hinit
    · simp at hinit
    · exact hinit
  match below, hok, htail with
  | [], _, htail => exact .stop (.inr (by simp [LoaderThread.inJava, htail]))
  | .lookup g :: below', hok, htail =>
    by_cases hzero : g.loader = 0
    · obtain ⟨hloader, hkey⟩ := hok.2.1 hzero
      have hpopped : s.pop.current.stack = .lookup g :: below' := htail
      apply returns_bootstrapFound ih htail _ hzero
      · show (if (s.pop.current).inJava = true then none else some _) = _
        rw [LoaderThread.inJava, hpopped]
        simp [hzero]
        rfl
      · show (LoaderVm.enter s.initiating f.loader f.key _ 0 g.elem).isSome = true
        simp [LoaderVm.enter, hloader, hkey]
      · unfold workLeft at hm ⊢
        rw [hstack] at hm
        rw [htail]
        simp only [pendingWork, hzero] at hm ⊢
        omega
      · rw [htail]
        exact hok.2.2
    · exact .stop (.inr (by simp [LoaderThread.inJava, htail, hzero]))
  | .define _ :: _, hok, _ => exact hok.2.1.elim

/-- A definition looks up its next supertype. -/
theorem returns_lookupSupertype {m : ℕ} (ih : ReturnsBelow W m)
    (hW : ∀ p ∈ W.classpath, p.2.plainSupertypes = true)
    (hstack : s.current.stack = .define f :: below) (hok : StackOk s.current.stack)
    (hm : W.workLeft s < m + 1) {n : ClassName} (hrest : f.rest ≠ []) (hplain : n.head? ≠ some '[')
    (hin : s.inchoate n = false) (memory : Bool) :
    W.Returns (s.lookupClass n f.loader true memory) := by
  have hw : Waiting s.current.stack := by
    rw [hstack]
    exact hrest
  obtain hparse | hparse := parseName_plain hplain
  · have hcrash : s.lookupClass n f.loader true memory = s.crash := by
      simp only [LoaderVm.lookupClass, hparse]
    rw [hcrash]
    exact .stop (.inl rfl)
  · cases hinit : s.initiating f.loader n with
    | some c =>
      rw [LoaderVm.lookupClass_recorded hparse hinit]
      have hm' : W.workLeft s < m + 3 := by omega
      exact returns_deliver_some (s := { s with answers := _ :: s.answers }) ih hok hw hm' _
    | none =>
      rw [LoaderVm.lookupClass_loads hparse hinit]
      by_cases hzero : f.loader = 0
      · rw [if_pos (.inl hzero)]
        have hpushed : StackOk (.lookup ⟨n, n, 0, f.loader, true, false⟩ :: s.current.stack) :=
          ⟨hparse, hw, hok⟩
        apply returns_bootstrapLookup ih hW rfl hpushed hzero rfl
        intro bytes hfile
        have hread : W.unreadWork ({ s with
            inchoate := Function.update s.inchoate n true }.push
              (.lookup ⟨n, n, 0, f.loader, true, false⟩)) + bytes.work ≤ W.unreadWork s := by
          apply unreadWork_read hfile
          · intro k hk
            simp only [LoaderVm.unread, LoaderVm.push, Bool.and_eq_true, Bool.not_eq_true'] at hk ⊢
            obtain ⟨hk, hkinit⟩ := hk
            refine ⟨?_, hkinit⟩
            by_cases hkn : k = n
            · rw [hkn]
              exact hin
            · rwa [Function.update_of_ne hkn] at hk
          · rw [hzero] at hinit
            simp [LoaderVm.unread, hin, hinit]
          · simp [LoaderVm.unread, LoaderVm.push]
        unfold workLeft at hm
        show _ + pendingWork s.current.stack ≤ m
        omega
      · split
        · exact .stop (.inr (by simp [LoaderVm.push, LoaderThread.inJava, hzero]))
        · have hacc : s.Accepts none s.current.stack := LoaderVm.accepts_of_waiting hw
          exact returns_deliver_none (s := { s with
            inchoate := _, current := { s.current with exception := _ },
            answers := _ :: s.answers }) hok hacc

theorem returnsBelow (hW : ∀ p ∈ W.classpath, p.2.plainSupertypes = true) (m : ℕ) :
    ReturnsBelow W m := by
  induction m with
  | zero =>
    intro s f below _ _ _ hm
    omega
  | succ m ih =>
    intro s f below hstack hok hresult hm
    cases hrest : f.rest with
    | nil =>
      refine Returns.advance (fun _ => s.finishDefine f) (fun memory => ?_) fun _ => ?_
      · simp only [advance, hstack, hresult, hrest]
      · exact returns_finishDefine ih hstack hok (by omega)
    | cons p more =>
      obtain ⟨i, n⟩ := p
      refine Returns.advance (fun memory => s.resolveSupertype f i n more memory) (fun memory => ?_)
        fun memory => ?_
      · simp only [advance, hstack, hresult, hrest]
      · have hplain : n.head? ≠ some '[' := by
          have hok' := hok
          rw [hstack] at hok'
          apply hok'.1 (i, n)
          rw [hrest]
          exact mem_cons_self
        unfold LoaderVm.resolveSupertype
        generalize ht : { s with
          checks := ⟨f.loader, n, s.current.stack, s.inchoate n⟩ :: s.checks } = t
        have hstack' : t.current.stack = .define f :: below := by
          subst ht
          exact hstack
        have hok' : StackOk t.current.stack := by
          subst ht
          exact hok
        have hm' : W.workLeft t < m + 1 := by
          subst ht
          exact hm
        show W.Returns (if t.inchoate n = true then _ else _)
        split
        · exact returns_failDefine hstack' hok' _
        · rename_i hin
          split
          · exact returns_nextSupertype ih hstack' hok' (by omega) hrest rfl rfl
          · exact returns_lookupSupertype ih hW hstack' hok' hm' (by simp [hrest]) hplain
              (by simpa using hin) memory

theorem deliver_self {r : Option RuntimeClass} (hjava : s.current.inJava = false)
    (hr : s.current.result = some r) : s.deliver r = s := by
  have hres : (if s.current.inJava = true then none else some r) = s.current.result := by
    rw [hr]
    simp [hjava]
  unfold LoaderVm.deliver
  rw [hres]

/-- From every state that lookups reach, native code returns to Java code. -/
theorem returns_of_lookupInv (hW : ∀ p ∈ W.classpath, p.2.plainSupertypes = true)
    (h : s.LookupInv) : W.Returns s := by
  by_cases hjava : s.current.inJava = true
  · exact .stop (.inr hjava)
  have hjava' : s.current.inJava = false := by simpa using hjava
  have ih := returnsBelow hW (W.workLeft s + 1)
  cases hr : s.current.result with
  | some r =>
    have hacc := (h.result r hr).2
    cases r with
    | none =>
      rw [← deliver_self hjava' hr]
      apply returns_deliver_none h.stack hacc
    | some c =>
      match hfs : s.current.stack with
      | [] => simp [LoaderThread.inJava, hfs] at hjava
      | .define f :: below =>
        rw [hfs] at hacc
        rw [← deliver_self hjava' hr]
        apply returns_deliver_some ih h.stack _ (by omega)
        rw [hfs]
        exact hacc
      | .lookup f :: below =>
        have hzero : f.loader = 0 := by simpa [LoaderThread.inJava, hfs] using hjava
        rw [hfs] at hacc
        obtain ⟨id, d, rfl, hd, hloader, hkey⟩ := hacc hzero c rfl
        apply returns_bootstrapFound ih hfs h.stack hzero hr _ (by omega)
        have hrec := (h.recorded id d hd).2
        rw [hloader, hkey] at hrec
        simp [hrec]
  | none =>
    match hfs : s.current.stack with
    | [] => simp [LoaderThread.inJava, hfs] at hjava
    | .define f :: below => exact ih s f below hfs h.stack hr (by omega)
    | .lookup f :: below =>
      have hzero : f.loader = 0 := by simpa [LoaderThread.inJava, hfs] using hjava
      have hfile := returnsBelow hW (W.unreadWork s +
        ((OrderedMap.get W.classpath f.elem).map ClassBytes.work).getD 0 + pendingWork below)
      apply returns_bootstrapLookup hfile hW hfs h.stack hzero hr
      intro bytes hbytes
      rw [hbytes]
      exact Nat.le_refl _

theorem lookupConsistent_of_inv (hW : ∀ p ∈ W.classpath, p.2.plainSupertypes = true)
    (h : s.LookupInv) : LookupConsistent W s where
  running := h.running
  denoted := by
    intro a ha
    obtain ⟨-, hexc | ⟨dims, k, hparse, hres⟩ | ⟨dims, elem, id, hparse, ⟨-, d, hd, hname⟩, hres⟩⟩ :=
      h.answered a ha
    · exact .inl hexc
    · exact .inr ⟨dims, _, _, hparse, hres, rfl⟩
    · exact .inr ⟨dims, _, _, hparse, hres, id, d, rfl, hd, hname⟩
  stable := by
    intro a ha c hc raise memory
    obtain ⟨-, hexc | ⟨dims, k, hparse, hres⟩ | ⟨dims, elem, id, hparse, ⟨hrec, -⟩, hres⟩⟩ :=
      h.answered a ha
    · rw [hexc] at hc
      simp at hc
    · cases hres.symm.trans hc
      exact LoaderVm.lookupClass_primitive hparse raise memory
    · cases hres.symm.trans hc
      rw [LoaderVm.lookupClass_recorded hparse hrec]
      simp [RuntimeClass.addDims]
  defining := by
    intro id d hd l
    constructor
    · rintro ⟨k, hk⟩
      obtain ⟨d', hd', hl, -⟩ := h.loadedOf l k id hk
      obtain rfl : d = d' := Option.some.inj (hd.symm.trans hd')
      exact hl.symm
    · rintro rfl
      exact ⟨d.key, (h.recorded id d hd).1⟩
  uninterrupted := fun a ha => (h.answered a ha).1
  returns := returns_of_lookupInv hW h

theorem lookupInv_start : LoaderVm.start.LookupInv where
  running := rfl
  recorded := by simp [LoaderVm.start]
  loadedOf := by simp [LoaderVm.start]
  answered := by simp [LoaderVm.start]
  stack := trivial
  others := by simp [LoaderVm.start]
  result := by simp [LoaderVm.start, LoaderThread.idle]

/-- In a run in which class files and `loadClass` methods keep to their contract and no lookup is
suspended, lookups are consistent in every state. -/
theorem lookup_consistent (W : LoaderGraph) (hW : ∀ p ∈ W.classpath, p.2.plainSupertypes = true)
    {s : LoaderVm} (h : Runs W.loadStep (fun v e => W.faithful v e = true) LoaderVm.start s) :
    LookupConsistent W s :=
  lookupConsistent_of_inv hW (h.invariant LoaderVm.LookupInv lookupInv_start fun _ _ _ hinv hok hstep =>
    lookupInv_loadStep hW hinv hok hstep)

/-- A user defined loader below the bootstrap loader, whose class path has one class. -/
def objectLoader : LoaderGraph where
  parent := fun _ => 0
  parent_lt := fun _ h => Nat.pos_of_ne_zero h
  classpath := [(['O'], ⟨true, ['O'], none, [], none⟩)]

/-- The loader delegates the lookup of an array of arrays of `O` to the bootstrap loader. -/
def delegatedLookup : List LoadEvent :=
  [.lookup "[[LO;".toList 1 true true, .lookup ['O'] 0 false true, .advance true, .advance true,
    .advance true, .loadReturns (.returned (some ⟨.defined 0, 0⟩)) 0 none]

theorem lookup_consistent_delegated :
    (∀ p ∈ objectLoader.classpath, p.2.plainSupertypes = true) ∧
    ∃ s, checkedRun objectLoader.loadStep objectLoader.faithful LoaderVm.start delegatedLookup =
        some s ∧ LookupConsistent objectLoader s ∧
      s.answers.head?.map (·.result) = some (.found ⟨.defined 0, 2⟩) :=
  ⟨by decide, _, rfl,
    lookup_consistent objectLoader (by decide) (runs_of_checkedRun (w := delegatedLookup) rfl), rfl⟩

/-- The lookup is suspended in `loadClass`, and `dimensions` is not what it was. -/
def suspendedLookup : List LoadEvent :=
  [.spawn, .lookup "[[LO;".toList 1 false true, .lookup ['O'] 0 false true, .advance true,
    .advance true, .advance true, .switch 0, .switch 0,
    .loadReturns (.returned (some ⟨.defined 0, 0⟩)) 1 none]

theorem lookup_suspended :
    ¬ ∀ (W : LoaderGraph) (s : LoaderVm), Reachable W.loadStep LoaderVm.start s →
      LookupConsistent W s := by
  intro h
  have hrun : ∃ s, run objectLoader.loadStep LoaderVm.start suspendedLookup = some s ∧
      ∃ a ∈ s.answers, a.result = .found ⟨.defined 0, 1⟩ ∧
        a.uninterrupted = .found ⟨.defined 0, 2⟩ :=
    ⟨_, rfl, _, mem_cons_self, rfl, rfl⟩
  obtain ⟨s, hs, a, ha, hres, hkept⟩ := hrun
  have := (h objectLoader s (reachable_of_run hs)).uninterrupted a ha
  rw [hres, hkept] at this
  simp at this

end LoaderGraph

end TraceJvm
