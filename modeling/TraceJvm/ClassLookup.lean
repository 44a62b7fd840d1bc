import TraceJvm.ClassLoading

/-! What `lookup_class` answers over a whole run: the class that the name denotes, the same one on
every later lookup, and tables in which every class stands with its defining loader. -/
namespace TraceJvm

open Transition List Option

def ClassBytes.plainSupertypes (b : ClassBytes) : Bool :=
  b.supertypes.all fun p => p.2.head? ≠ some '['

/-- The lookup does not end without a class and without an exception, and does not abort. -/
def LookupFrame.mayFail (f : LookupFrame) (e : Option LoadError) : Bool :=
  if f.raise then f.elem ≠ classNotFoundException else e.isSome

namespace LoaderVm

def named (s : LoaderVm) (c : RuntimeClass) (n : ClassName) : Bool :=
  match c with
  | ⟨.defined id, 0⟩ => (s.classes[id]?).any fun d => d.bytes.name = n
  | _ => false

def definedAs (s : LoaderVm) (c : RuntimeClass) (n : ClassName) : Bool :=
  match c with
  | ⟨.defined id, 0⟩ => (s.classes[id]?).any fun d => d.key = n
  | _ => false

def findsNamed (s : LoaderVm) (full : ClassName) (loader : ℕ) : Bool :=
  match parseName full with
  | none => false
  | some (_, .primitive _) => true
  | some (_, .named elem) => (s.initiating loader elem).all fun c => s.named c elem

end LoaderVm

namespace LoaderGraph

variable (W : LoaderGraph)

/-- The defining loader of `c` is the loader or one of its parents, and no loader before it has
recorded another class for the name. -/
def delegates (s : LoaderVm) (elem : ClassName) (c : RuntimeClass) (loader : ℕ) : Bool :=
  (W.chainTo (s.loaderOf c) loader loader).any fun chain =>
    chain.all fun l => (s.initiating l elem).all (· = c)

/-- The steps in which class files and `loadClass` methods keep to the contract of class loaders
and no lookup is suspended. -/
def faithful (s : LoaderVm) : LoadEvent → Bool
  | .lookup full loader _ _ => s.findsNamed full loader
  | .define _ _ bytes => bytes.plainSupertypes
  | .advance _ =>
      match s.current.stack, s.current.result with
      | .define f :: _, none =>
          match f.rest with
          | [] => (s.initiating f.loader f.key).isNone
          | (i, n) :: _ => s.inchoate n || f.resolved.contains i || s.findsNamed n f.loader
      | .lookup f :: _, none =>
          (OrderedMap.get W.classpath f.elem).isSome || f.mayFail s.current.exception
      | .lookup f :: _, some none => f.mayFail s.current.exception
      | .lookup f :: _, some (some c) => s.named c f.elem
      | _, _ => true
  | .loadReturns outcome _ _ =>
      match s.current.stack with
      | .lookup f :: _ =>
          !f.suspended && match outcome with
            | .threw => f.mayFail (some .thrown)
            | .returned none => f.mayFail none
            | .returned (some c) =>
                s.named c f.elem && s.definedAs c f.elem && W.delegates s f.elem c f.loader
      | _ => true
  | _ => true

/-- Native code alone: whatever allocations succeed, the calls on top of the stack end after finitely
many steps, back in Java code or with the machine stopped. -/
inductive Returns : LoaderVm → Prop where
  | stop {s : LoaderVm} (h : s.crashed = true ∨ s.current.inJava = true) : Returns s
  | step {s : LoaderVm} (next : Bool → LoaderVm)
      (h : ∀ memory, W.loadStep s (.advance memory) = some (next memory))
      (hnext : ∀ memory, Returns (next memory)) : Returns s

end LoaderGraph

namespace LoaderVm

def Denotes (s : LoaderVm) (base : ClassBase) : ElementName → Prop
  | .primitive k => base = .primitive k
  | .named n => ∃ id d, base = .defined id ∧ s.classes[id]? = some d ∧ d.bytes.name = n

end LoaderVm

/-- Lookups are consistent in a state: the machine goes on, every lookup that has ended has thrown
an exception or found the array class over the class that the element of its name denotes, a lookup
of the same name through the same loader finds the same class again at once, a class is in the table
of its defining loader only, suspensions have made no difference, and the lookups in progress wait
for Java code only. -/
structure LookupConsistent (W : LoaderGraph) (s : LoaderVm) : Prop where
  running : s.crashed = false
  denoted : ∀ a ∈ s.answers, a.result = .exception ∨ ∃ dims e base,
    parseName a.name = some (dims, e) ∧ a.result = .found ⟨base, dims⟩ ∧ s.Denotes base e
  stable : ∀ a ∈ s.answers, ∀ c, a.result = .found c → ∀ raise memory,
    s.lookupClass a.name a.loader raise memory =
      s.answer ⟨a.name, a.loader, .found c, .found c⟩
  defining : ∀ id d, s.classes[id]? = some d → ∀ l, (∃ k, s.loaded l k = some id) ↔ l = d.loader
  uninterrupted : ∀ a ∈ s.answers, a.result = a.uninterrupted
  returns : W.Returns s

def Waiting : List LoadFrame → Prop
  | [] => True
  | .lookup f :: _ => f.loader ≠ 0
  | .define f :: _ => f.rest ≠ []

/-- `define_class` is called by Java code, or for the class that a bootstrap lookup has to load. -/
def DefinesFor (f : DefineFrame) : List LoadFrame → Prop
  | [] => True
  | .lookup g :: _ => g.loader = 0 → f.loader = 0 ∧ f.key = g.elem
  | .define _ :: _ => False

def StackOk : List LoadFrame → Prop
  | [] => True
  | .lookup f :: below =>
      parseName f.full = some (f.dims, .named f.elem) ∧ Waiting below ∧ StackOk below
  | .define f :: below =>
      (∀ p ∈ f.rest, p.2.head? ≠ some '[') ∧ DefinesFor f below ∧ StackOk below

variable {fs : List LoadFrame}

theorem StackOk.tail (h : StackOk fs) : StackOk fs.tail := by
  match fs, h with
  | [], _ => trivial
  | .lookup _ :: _, h => exact h.2.2
  | .define _ :: _, h => exact h.2.2

theorem stackOk_suspend (h : StackOk fs) : StackOk (fs.map LoadFrame.suspend) := by
  have hw : ∀ gs, Waiting gs → Waiting (gs.map LoadFrame.suspend) := by
    rintro (_ | ⟨_ | _, gs⟩) hg <;> exact hg
  have hd : ∀ f gs, DefinesFor f gs → DefinesFor f (gs.map LoadFrame.suspend) := by
    rintro f (_ | ⟨_ | _, gs⟩) hg <;> exact hg
  induction fs with
  | nil => trivial
  | cons f fs ih =>
    cases f with
    | lookup f => exact ⟨h.1, hw _ h.2.1, ih h.2.2⟩
    | define f => exact ⟨h.1, hd _ _ h.2.1, ih h.2.2⟩

namespace LoaderVm

/-- The lookup of `loader` for `elem` has found the class `id`. -/
def Records (s : LoaderVm) (loader : ℕ) (elem : ClassName) (id : ℕ) : Prop :=
  s.initiating loader elem = some ⟨.defined id, 0⟩ ∧
    ∃ d, s.classes[id]? = some d ∧ d.bytes.name = elem

def Answered (s : LoaderVm) (a : LookupAnswer) : Prop :=
  a.result = a.uninterrupted ∧ (a.result = .exception ∨
    (∃ dims k, parseName a.name = some (dims, .primitive k) ∧
      a.result = .found ⟨.primitive k, dims⟩) ∨
    ∃ dims elem id, parseName a.name = some (dims, .named elem) ∧ s.Records a.loader elem id ∧
      a.result = .found ⟨.defined id, dims⟩)

/-- What a native caller can do with the result `r`. -/
def Accepts (s : LoaderVm) (r : Option RuntimeClass) : List LoadFrame → Prop
  | [] => True
  | .lookup f :: _ => f.loader = 0 → ∀ c, r = some c → ∃ id d, c = ⟨.defined id, 0⟩ ∧
      s.classes[id]? = some d ∧ d.loader = 0 ∧ d.key = f.elem
  | .define f :: _ => f.rest ≠ []

structure LoadInv (s : LoaderVm) : Prop where
  running : s.crashed = false
  recorded : ∀ id d, s.classes[id]? = some d → s.loaded d.loader d.key = some id ∧
    s.initiating d.loader d.key = some ⟨.defined id, 0⟩
  loadedOf : ∀ l k id, s.loaded l k = some id →
    ∃ d, s.classes[id]? = some d ∧ d.loader = l ∧ d.key = k
  answered : ∀ a ∈ s.answers, s.Answered a
  stack : StackOk s.current.stack
  others : ∀ t ∈ s.others, t.result = none ∧ StackOk t.stack

/-- The invariant between two steps: a result that waits is one that its caller can use. -/
structure LookupInv (s : LoaderVm) : Prop extends LoadInv s where
  result : ∀ r, s.current.result = some r →
    s.current.inJava = false ∧ s.Accepts r s.current.stack

variable {s s' : LoaderVm}

structure Grows (s s' : LoaderVm) : Prop where
  classes : ∀ (id : ℕ) d, s.classes[id]? = some d → s'.classes[id]? = some d
  initiating : ∀ l n c, s.initiating l n = some c → s'.initiating l n = some c

variable {loader : ℕ}

theorem Records.grows {id : ℕ} {elem : ClassName} (h : s.Records loader elem id)
    (hg : Grows s s') : s'.Records loader elem id := by
  obtain ⟨hi, d, hd, hname⟩ := h
  exact ⟨hg.initiating _ _ _ hi, d, hg.classes _ _ hd, hname⟩

theorem Answered.grows {a : LookupAnswer} (h : s.Answered a) (hg : Grows s s') : s'.Answered a := by
  obtain ⟨hsame, hexc | hprim | ⟨dims, elem, id, hparse, hrec, hres⟩⟩ := h
  · exact ⟨hsame, .inl hexc⟩
  · exact ⟨hsame, .inr (.inl hprim)⟩
  · exact ⟨hsame, .inr (.inr ⟨dims, elem, id, hparse, hrec.grows hg, hres⟩)⟩

theorem waiting_of_inJava (h : s.current.inJava = true) : Waiting s.current.stack := by
  unfold LoaderThread.inJava at h
  unfold Waiting
  split <;> simp_all

variable {f : DefineFrame}

theorem definesFor_of_inJava (h : s.current.inJava = true) : DefinesFor f s.current.stack := by
  unfold LoaderThread.inJava at h
  unfold DefinesFor
  split <;> simp_all

variable {r : Option RuntimeClass}

theorem accepts_of_waiting {fs : List LoadFrame} (h : Waiting fs) : s.Accepts r fs := by
  unfold Waiting at h
  unfold Accepts
  split
  · trivial
  · intro hzero
    exact absurd hzero h
  · exact h

theorem LoadInv.deliver (h : s.LoadInv)
    (hr : s.Accepts r s.current.stack) : (s.deliver r).LookupInv where
  toLoadInv := { h with }
  result := by
    intro r' hr'
    have hres : (if s.current.inJava = true then none else some r) = some r' := hr'
    split at hres
    · simp at hres
    · rename_i hj
      cases hres
      exact ⟨by simpa [LoaderVm.deliver, LoaderThread.inJava] using hj, hr⟩

theorem LoadInv.answer (h : s.LoadInv) {a : LookupAnswer} (ha : s.Answered a)
    (hw : Waiting s.current.stack) : (s.answer a).LookupInv where
  toLoadInv := by
    refine { h with answered := ?_ }
    intro b hb
    obtain rfl | hb := mem_cons.1 hb
    · exact ha
    · exact h.answered b hb
  result := (h.deliver (accepts_of_waiting hw)).result

theorem LoadInv.raise (h : s.LoadInv) (e : LoadError) : (s.raise e).LoadInv :=
  { h with }

theorem LoadInv.push (h : s.LoadInv) {f : LoadFrame} (hf : StackOk (f :: s.current.stack)) :
    (s.push f).LookupInv where
  toLoadInv := { h with stack := hf }
  result := by
    intro r hr
    simp [LoaderVm.push] at hr

theorem LoadInv.pop (h : s.LoadInv) : s.pop.LoadInv :=
  { h with stack := h.stack.tail }

variable {n : ClassName}

theorem named_iff {c : RuntimeClass} : s.named c n = true ↔
      ∃ id d, c = ⟨.defined id, 0⟩ ∧ s.classes[id]? = some d ∧ d.bytes.name = n := by
  unfold named
  split
  · simp [Option.any_eq_true]
  · rename_i hne
    simp only [Bool.false_eq_true, false_iff, not_exists]
    rintro id d ⟨rfl, -⟩
    exact hne id rfl

theorem definedAs_iff {id : ℕ} :
    s.definedAs ⟨.defined id, 0⟩ n = true ↔ ∃ d, s.classes[id]? = some d ∧ d.key = n := by
  simp [definedAs, Option.any_eq_true]

theorem LoadInv.of_tables (h : s.LoadInv) (hclasses : s'.classes = s.classes)
    (hloaded : s'.loaded = s.loaded) (hinit : s'.initiating = s.initiating)
    (hanswers : s'.answers = s.answers) (hcrashed : s'.crashed = s.crashed)
    (hstack : StackOk s'.current.stack) (hothers : s'.others = s.others) : s'.LoadInv where
  running := by rw [hcrashed]; exact h.running
  recorded := by rw [hclasses, hloaded, hinit]; exact h.recorded
  loadedOf := by rw [hclasses, hloaded]; exact h.loadedOf
  answered := by
    intro a ha
    rw [hanswers] at ha
    exact (h.answered a ha).grows ⟨by rw [hclasses]; exact fun _ _ => id,
      by rw [hinit]; exact fun _ _ _ => id⟩
  stack := hstack
  others := by rw [hothers]; exact h.others

/-- The beginning of a lookup. -/
theorem LoadInv.lookupClass (h : s.LoadInv) {full : ClassName} {raise memory : Bool}
    (hw : Waiting s.current.stack) (hok : s.findsNamed full loader = true) :
    (s.lookupClass full loader raise memory).LookupInv := by
  unfold findsNamed at hok
  cases hparse : parseName full with
  | none => simp [hparse] at hok
  | some p =>
    obtain ⟨dims, k | elem⟩ := p
    · rw [lookupClass_primitive hparse]
      exact h.answer ⟨rfl, .inr (.inl ⟨dims, k, hparse, rfl⟩)⟩ hw
    · rw [hparse] at hok
      cases hinit : s.initiating loader elem with
      | some c =>
        simp only [hinit, all_some] at hok
        obtain ⟨id, d, rfl, hd, hname⟩ := named_iff.1 hok
        rw [lookupClass_recorded hparse hinit]
        refine h.answer ⟨rfl, .inr (.inr ⟨dims, elem, id, hparse, ⟨hinit, d, hd, hname⟩, ?_⟩)⟩ hw
        simp [RuntimeClass.addDims]
      | none =>
        have hin : { s with inchoate := Function.update s.inchoate elem true }.LoadInv :=
          h.of_tables rfl rfl rfl rfl rfl h.stack rfl
        rw [lookupClass_loads hparse hinit]
        split
        · exact hin.push ⟨hparse, hw, h.stack⟩
        · exact (hin.raise _).answer ⟨rfl, .inl rfl⟩ hw

theorem LoadInv.defineClass (h : s.LoadInv) {key : ClassName} {bytes : ClassBytes}
    (hfor : ∀ rest resolved, DefinesFor ⟨loader, key, bytes, rest, resolved⟩ s.current.stack)
    (hplain : bytes.plainSupertypes = true) : (s.defineClass loader key bytes).LookupInv := by
  have hnone : s.Accepts none s.current.stack := by
    have hf := hfor [] []
    unfold Accepts
    split
    · trivial
    · simp
    · rename_i hstack
      rw [hstack] at hf
      exact hf.elim
  unfold LoaderVm.defineClass
  split
  · exact (h.raise _).deliver hnone
  · split
    · refine h.push ⟨?_, hfor _ _, h.stack⟩
      intro p hp
      have := all_eq_true.1 hplain p hp
      simpa using this
    · exact (h.raise _).deliver hnone

variable {below : List LoadFrame}

theorem pop_stack (hstack : s.current.stack = .define f :: below) : s.pop.current.stack = below :=
  congrArg List.tail hstack

theorem LoadInv.failDefine (h : s.LoadInv)
    (hstack : s.current.stack = .define f :: below) (e : Option LoadError) :
    (s.failDefine e).LookupInv := by
  have hok : StackOk (.define f :: below) := hstack ▸ h.stack
  have hinv : { s.pop with current := { s.pop.current with exception := e } }.LoadInv :=
    h.pop.of_tables rfl rfl rfl rfl rfl h.pop.stack rfl
  apply hinv.deliver
  show s.Accepts none s.pop.current.stack
  rw [pop_stack hstack]
  match below, hok with
  | [], _ => trivial
  | .lookup _ :: _, _ => simp [Accepts]
  | .define _ :: _, hok => exact hok.2.1.elim

theorem LoadInv.replaceDefine (h : s.LoadInv) {f g : DefineFrame}
    (hstack : s.current.stack = .define f :: below) (hloader : g.loader = f.loader)
    (hkey : g.key = f.key) (hrest : ∀ p ∈ g.rest, p ∈ f.rest) :
    (s.pop.push (.define g)).LookupInv := by
  have hok : StackOk (.define f :: below) := hstack ▸ h.stack
  apply h.pop.push
  rw [pop_stack hstack]
  refine ⟨fun p hp => hok.1 p (hrest p hp), ?_, hok.2.2⟩
  have hfor := hok.2.1
  unfold DefinesFor at hfor ⊢
  rw [hloader, hkey]
  exact hfor

variable {i : ℕ} {more : List (ℕ × ClassName)}

theorem LoadInv.supertypeResolved (h : s.LoadInv) (hstack : s.current.stack = .define f :: below)
    (hrest : f.rest = (i, n) :: more) (r : Option RuntimeClass) :
    (s.supertypeResolved f i n more r).LookupInv := by
  cases r with
  | none => exact h.failDefine hstack _
  | some c =>
    simp only [LoaderVm.supertypeResolved]
    split
    · refine h.replaceDefine hstack rfl rfl ?_
      intro p hp
      rw [hrest]
      exact mem_cons_of_mem _ hp
    · exact h.failDefine hstack _

theorem LoadInv.resolveSupertype (h : s.LoadInv) (hstack : s.current.stack = .define f :: below)
    (hrest : f.rest = (i, n) :: more) {memory : Bool}
    (hok : s.inchoate n = true ∨ f.resolved.contains i = true ∨ s.findsNamed n f.loader = true) :
    (s.resolveSupertype f i n more memory).LookupInv := by
  unfold LoaderVm.resolveSupertype
  generalize hs : { s with
    checks := ⟨f.loader, n, s.current.stack, s.inchoate n⟩ :: s.checks } = t
  have ht : t.LoadInv := by
    subst hs
    exact h.of_tables rfl rfl rfl rfl rfl h.stack rfl
  have hstack' : t.current.stack = .define f :: below := by
    subst hs
    exact hstack
  have hfinds : t.findsNamed n f.loader = s.findsNamed n f.loader := by
    subst hs
    rfl
  have hinchoate : t.inchoate = s.inchoate := by
    subst hs
    rfl
  show LookupInv (if t.inchoate n = true then _ else _)
  split
  · exact ht.failDefine hstack' _
  · rename_i hin
    rw [hinchoate] at hin
    split
    · refine ht.replaceDefine hstack' rfl rfl ?_
      intro p hp
      rw [hrest]
      exact mem_cons_of_mem _ hp
    · rename_i hres
      apply ht.lookupClass
      · rw [hstack']
        simp [Waiting, hrest]
      · rw [hfinds]
        obtain hi | hr | hf := hok
        · exact absurd hi hin
        · exact absurd (contains_iff_mem.1 hr) hres
        · exact hf

theorem enter_of_some {α : Type} {table : ℕ → ClassName → Option α} {l : ℕ}
    {key k : ClassName} {v c : α} (hnone : table loader key = none) (hc : table l k = some c) :
    enter table loader key v l k = some c := by
  have hne : ¬ (l = loader ∧ k = key) := by
    rintro ⟨rfl, rfl⟩
    simp [hnone] at hc
  rw [enter, if_neg hne]
  exact hc

theorem getElem?_concat_cases {α : Type} {xs : List α} {x y : α}
    (h : (xs ++ [x])[i]? = some y) : xs[i]? = some y ∨ i = xs.length ∧ y = x := by
  rw [getElem?_append] at h
  split at h
  · exact .inl h
  · obtain ⟨hi, rfl⟩ := List.getElem?_eq_some_iff.1 h
    rw [length_singleton] at hi
    exact .inr ⟨by omega, by simp⟩

theorem getElem?_concat_of_some {α : Type} {xs : List α} {x y : α}
    (h : xs[i]? = some y) : (xs ++ [x])[i]? = some y := by
  rw [List.getElem?_append_left (List.getElem?_eq_some_iff.1 h).1]
  exact h

theorem LoadInv.loaded_none (h : s.LoadInv) {l : ℕ} {k : ClassName}
    (hnone : s.initiating l k = none) : s.loaded l k = none := by
  by_contra hsome
  obtain ⟨id, hid⟩ := ne_none_iff_exists'.1 hsome
  obtain ⟨d, hd, rfl, rfl⟩ := h.loadedOf l k id hid
  have hinit := (h.recorded id d hd).2
  rw [hnone] at hinit
  cases hinit

/-- The tables with a new class, where its loader has not recorded its name meanwhile. -/
theorem LoadInv.defined (h : s.LoadInv) (d : DefinedClass)
    (hnone : s.initiating d.loader d.key = none) :
    { s with
      classes := s.classes ++ [d]
      loaded := enter s.loaded d.loader d.key s.classes.length
      initiating := enter s.initiating d.loader d.key ⟨.defined s.classes.length, 0⟩ }.LoadInv := by
  have hloaded := h.loaded_none hnone
  have hnew : (s.classes ++ [d])[s.classes.length]? = some d := by simp
  constructor
  · exact h.running
  · intro id e he
    obtain he | ⟨rfl, rfl⟩ := getElem?_concat_cases he
    · obtain ⟨hl, hi⟩ := h.recorded id e he
      exact ⟨enter_of_some hloaded hl, enter_of_some hnone hi⟩
    · exact ⟨by simp [enter], by simp [enter]⟩
  · intro l k id hid
    change enter s.loaded d.loader d.key s.classes.length l k = some id at hid
    unfold enter at hid
    split at hid
    · rename_i heq
      obtain ⟨rfl, rfl⟩ := heq
      cases hid
      exact ⟨_, hnew, rfl, rfl⟩
    · obtain ⟨e, he, hl, hk⟩ := h.loadedOf l k id hid
      exact ⟨e, getElem?_concat_of_some he, hl, hk⟩
  · intro a ha
    refine (h.answered a ha).grows ⟨?_, ?_⟩
    · exact fun _ _ he => getElem?_concat_of_some he
    · exact fun _ _ _ hc => enter_of_some hnone hc
  · exact h.stack
  · exact h.others

theorem LoadInv.finishDefine (h : s.LoadInv) (hstack : s.current.stack = .define f :: below)
    (hnone : s.initiating f.loader f.key = none) : (s.finishDefine f).LookupInv := by
  have hok : StackOk (.define f :: below) := hstack ▸ h.stack
  apply LoadInv.deliver
  · exact h.pop.defined ⟨f.key, f.loader, f.bytes⟩ hnone
  · show Accepts _ _ s.pop.current.stack
    rw [pop_stack hstack]
    match below, hok with
    | [], _ => trivial
    | .lookup g :: _, hok =>
      intro hg c hc
      cases hc
      obtain ⟨hl, hk⟩ := hok.2.1 hg
      exact ⟨_, ⟨f.key, f.loader, f.bytes⟩, rfl, by simp, hl, hk⟩
    | .define _ :: _, hok => exact hok.2.1.elim

end LoaderVm

namespace LoaderGraph

open LoaderVm

variable {W : LoaderGraph} {s s' : LoaderVm}

theorem mem_chainTo {home d curr : ℕ} {chain : List ℕ} (h : W.chainTo home d curr = some chain) :
    curr = home ∨ curr ∈ chain := by
  cases d with
  | zero =>
    simp only [chainTo, ite_none_right_eq_some] at h
    exact .inl h.1
  | succ d =>
    simp only [chainTo] at h
    split at h
    · rename_i hhome
      exact .inl hhome
    · simp only [ite_none_left_eq_some, map_eq_some_iff] at h
      obtain ⟨-, below, -, rfl⟩ := h
      exact .inr mem_cons_self

/-- The marking loop ends at the defining loader and leaves the class recorded with the loader where
it began. -/
theorem markInitiating_records (h : s.LoadInv) {id loader : ℕ} {d : DefinedClass}
    {elem : ClassName} (hd : s.classes[id]? = some d) (hkey : d.key = elem)
    (hname : d.bytes.name = elem) (hdel : W.delegates s elem ⟨.defined id, 0⟩ loader = true) :
    ∃ t, W.markInitiating s elem ⟨.defined id, 0⟩ loader = some t ∧ t.LoadInv ∧
      t.Records loader elem id ∧ t.current = s.current := by
  unfold delegates at hdel
  have hhome : s.loaderOf ⟨.defined id, 0⟩ = d.loader := by simp [loaderOf, hd]
  obtain ⟨chain, hchain, hall⟩ := (any_eq_true _ _).1 hdel
  rw [hhome] at hchain
  have hsame : ∀ l ∈ chain, ∀ c, s.initiating l elem = some c → c = ⟨.defined id, 0⟩ := by
    intro l hl c hc
    have := all_eq_true.1 hall l hl
    simpa [hc] using this
  have hinit : ∀ l n c, s.initiating l n = some c →
      (if l ∈ chain ∧ n = elem then some ⟨.defined id, 0⟩ else s.initiating l n) = some c := by
    intro l n c hc
    split
    · rename_i hl
      obtain ⟨hl, rfl⟩ := hl
      rw [hsame l hl c hc]
    · exact hc
  have hmark : W.markInitiating s elem ⟨.defined id, 0⟩ loader = some { s with
      initiating := fun l n =>
        if l ∈ chain ∧ n = elem then some ⟨.defined id, 0⟩ else s.initiating l n } := by
    rw [markInitiating, hhome, hchain]
    rfl
  refine ⟨_, hmark, ?_, ?_, rfl⟩
  · constructor
    · exact h.running
    · intro id' d' hd'
      exact ⟨(h.recorded id' d' hd').1, hinit _ _ _ (h.recorded id' d' hd').2⟩
    · exact h.loadedOf
    · intro a ha
      exact (h.answered a ha).grows ⟨fun _ _ hx => hx, hinit⟩
    · exact h.stack
    · exact h.others
  · refine ⟨?_, d, hd, hname⟩
    obtain hl | hl := mem_chainTo hchain
    · have hrec := (h.recorded id d hd).2
      rw [hkey, ← hl] at hrec
      exact hinit _ _ _ hrec
    · exact if_pos ⟨hl, rfl⟩

section FinishLookup

variable {f : LookupFrame} {below : List LoadFrame}

theorem loadInv_leaveLookup (h : s.LoadInv) :
    { s.pop with inchoate := Function.update s.inchoate f.elem false }.LoadInv :=
  h.pop.of_tables rfl rfl rfl rfl rfl h.pop.stack rfl

theorem waiting_leaveLookup (h : s.LoadInv) (hstack : s.current.stack = .lookup f :: below) :
    Waiting s.pop.current.stack := by
  have hok : StackOk (.lookup f :: below) := hstack ▸ h.stack
  show Waiting s.current.stack.tail
  rw [hstack]
  exact hok.2.1

/-- A lookup that has loaded a class of the right name ends with it. -/
theorem lookupInv_finishLookup_found (h : s.LoadInv) (hstack : s.current.stack = .lookup f :: below)
    {c : RuntimeClass} (hnamed : s.named c f.elem = true) (hdefined : s.definedAs c f.elem = true)
    (hdel : W.delegates s f.elem c f.loader = true) :
    (W.finishLookup s f (some c) (some c) f.dims).LookupInv := by
  have hok : StackOk (.lookup f :: below) := hstack ▸ h.stack
  obtain ⟨id, d, rfl, hd, hname⟩ := named_iff.1 hnamed
  obtain ⟨d', hd', hkey⟩ := definedAs_iff.1 hdefined
  obtain rfl : d = d' := some.inj (hd.symm.trans hd')
  obtain ⟨t, ht, hinv, hrec, hcurrent⟩ :=
    markInitiating_records (loadInv_leaveLookup (f := f) h) hd hkey hname hdel
  simp only [finishLookup, ht]
  apply hinv.answer
  · refine ⟨rfl, .inr (.inr ⟨f.dims, f.elem, id, hok.1, hrec, ?_⟩)⟩
    simp [lookupResult, RuntimeClass.addDims]
  · rw [hcurrent]
    exact waiting_leaveLookup h hstack

theorem lookupInv_finishLookup_missing (h : s.LoadInv)
    (hstack : s.current.stack = .lookup f :: below)
    (hfail : f.mayFail s.current.exception = true) :
    (W.finishLookup s f none none f.dims).LookupInv := by
  have hinv := loadInv_leaveLookup (f := f) h
  have hw := waiting_leaveLookup h hstack
  unfold LookupFrame.mayFail at hfail
  cases hraise : f.raise with
  | false =>
    simp only [hraise, Bool.false_eq_true, if_false] at hfail
    simp only [finishLookup, hraise, if_true]
    refine hinv.answer ⟨rfl, .inl ?_⟩ hw
    show missingResult false s.current.exception = _
    simp [missingResult, hfail]
  | true =>
    simp only [hraise, if_true, decide_eq_true_eq] at hfail
    simp only [finishLookup, hraise, Bool.true_eq_false, if_false, if_neg hfail]
    refine (hinv.raise _).answer ⟨rfl, .inl ?_⟩ hw
    simp [lookupResult, missingResult]

end FinishLookup

theorem lookupInv_advance (hW : ∀ p ∈ W.classpath, p.2.plainSupertypes = true) (h : s.LookupInv)
    {memory : Bool} (hok : W.faithful s (.advance memory) = true)
    (hstep : W.advance s memory = some s') : s'.LookupInv := by
  unfold advance at hstep
  unfold faithful at hok
  split at hstep
  · rename_i f below hstack hresult
    simp only [hstack, hresult] at hok
    split at hstep
    · rename_i hrest
      cases hstep
      simp only [hrest, isNone_iff_eq_none] at hok
      exact h.finishDefine hstack hok
    · rename_i i n more hrest
      cases hstep
      simp only [hrest, Bool.or_eq_true] at hok
      exact h.resolveSupertype hstack hrest (by tauto)
  · rename_i f below r hstack hresult
    split at hstep
    · simp at hstep
    · rename_i i n more hrest
      cases hstep
      exact h.supertypeResolved hstack hrest _
  · rename_i f below hstack hresult
    simp only [hstack, hresult] at hok
    simp only [ite_none_left_eq_some, ne_eq, not_not] at hstep
    obtain ⟨hzero, hstep⟩ := hstep
    split at hstep
    · rename_i hfile
      cases hstep
      simp only [hfile, isSome_none, Bool.false_or] at hok
      exact lookupInv_finishLookup_missing h.toLoadInv hstack hok
    · rename_i bytes hfile
      cases hstep
      apply h.defineClass
      · intro rest resolved
        rw [hstack]
        exact fun _ => ⟨rfl, rfl⟩
      · exact hW _ (OrderedMap.mem_of_get hfile)
  · rename_i f below r hstack hresult
    simp only [hstack, hresult] at hok
    simp only [ite_none_left_eq_some, ne_eq, not_not] at hstep
    obtain ⟨hzero, hstep⟩ := hstep
    cases hstep
    cases r with
    | none => exact lookupInv_finishLookup_missing h.toLoadInv hstack hok
    | some c =>
      have hacc := (h.result _ hresult).2
      rw [hstack] at hacc
      obtain ⟨id, d, rfl, hd, hloader, hkey⟩ := hacc hzero c rfl
      apply lookupInv_finishLookup_found h.toLoadInv hstack hok
      · exact definedAs_iff.2 ⟨d, hd, hkey⟩
      · simp [delegates, loaderOf, hd, hloader, hzero, chainTo]
  · simp at hstep

theorem lookupInv_loadReturns (h : s.LookupInv) {f : LookupFrame} {below : List LoadFrame}
    (hstack : s.current.stack = .lookup f :: below) {outcome : LoadOutcome} {dims : ℕ}
    {cls : Option RuntimeClass} (hok : W.faithful s (.loadReturns outcome dims cls) = true)
    (hstep : W.loadReturns s f outcome dims cls = some s') : s'.LookupInv := by
  simp only [faithful, hstack, Bool.and_eq_true, Bool.not_eq_true'] at hok
  obtain ⟨hsusp, hok⟩ := hok
  cases outcome with
  | threw =>
    simp only [loadReturns, hsusp, Bool.false_eq_true, if_false] at hstep
    cases hstep
    apply lookupInv_finishLookup_missing (h.raise _) hstack
    unfold LookupFrame.mayFail at hok ⊢
    split
    · rename_i hraise
      simpa [hraise] using hok
    · rfl
  | returned mirror =>
    simp only [loadReturns, hsusp, Bool.false_eq_true, if_false, ite_none_left_eq_some,
      ite_none_right_eq_some] at hstep
    obtain ⟨hexc, -, hstep⟩ := hstep
    cases hstep
    cases mirror with
    | none =>
      apply lookupInv_finishLookup_missing h.toLoadInv hstack
      have hnone : s.current.exception = none := by simpa using hexc
      rw [hnone]
      exact hok
    | some c =>
      simp only [Bool.and_eq_true] at hok
      exact lookupInv_finishLookup_found h.toLoadInv hstack hok.1.1 hok.1.2 hok.2

theorem lookupInv_switch (h : s.LookupInv) {i : ℕ} {t : LoaderThread} (ht : s.others[i]? = some t)
    (hjava : s.current.inJava = true) :
    LookupInv { s with
      current := t
      others := s.others.set i
        { s.current with stack := s.current.stack.map LoadFrame.suspend } } := by
  have hresult : s.current.result = none := by
    cases hr : s.current.result with
    | none => rfl
    | some r =>
      have := (h.result r hr).1
      rw [hjava] at this
      simp at this
  obtain ⟨htr, hts⟩ := h.others t (mem_of_getElem? ht)
  refine ⟨{ h with stack := hts, others := ?_ }, ?_⟩
  · intro u hu
    obtain hu | rfl := mem_or_eq_of_mem_set hu
    · exact h.others u hu
    · exact ⟨hresult, stackOk_suspend h.stack⟩
  · intro r hr
    rw [htr] at hr
    simp at hr

theorem lookupInv_loadStep (hW : ∀ p ∈ W.classpath, p.2.plainSupertypes = true) {e : LoadEvent}
    (h : s.LookupInv) (hok : W.faithful s e = true) (hstep : W.loadStep s e = some s') :
    s'.LookupInv := by
  unfold loadStep at hstep
  split at hstep
  · simp at hstep
  cases e with
  | lookup full loader raise memory =>
    simp only [ite_none_right_eq_some] at hstep
    obtain ⟨⟨hjava, -⟩, hstep⟩ := hstep
    cases hstep
    exact h.lookupClass (waiting_of_inJava hjava) hok
  | define loader key bytes =>
    simp only [ite_none_right_eq_some] at hstep
    obtain ⟨⟨hjava, -⟩, hstep⟩ := hstep
    cases hstep
    exact h.defineClass (fun _ _ => definesFor_of_inJava hjava) hok
  | advance memory => exact lookupInv_advance hW h hok hstep
  | loadReturns outcome dims cls =>
    simp only at hstep
    split at hstep
    · rename_i f below hstack
      split at hstep
      · simp at hstep
      · exact lookupInv_loadReturns h hstack hok hstep
    · simp at hstep
  | catchException =>
    simp only [ite_none_right_eq_some] at hstep
    obtain ⟨-, hstep⟩ := hstep
    cases hstep
    exact ⟨h.of_tables rfl rfl rfl rfl rfl h.stack rfl, h.result⟩
  | spawn =>
    cases hstep
    refine ⟨{ h with others := ?_ }, h.result⟩
    intro t ht
    obtain ht | ht := mem_append.1 ht
    · exact h.others t ht
    · obtain rfl := mem_singleton.1 ht
      exact ⟨rfl, trivial⟩
  | switch i =>
    simp only at hstep
    split at hstep
    · simp at hstep
    · rename_i t ht
      simp only [ite_none_right_eq_some] at hstep
      obtain ⟨⟨-, hjava⟩, hstep⟩ := hstep
      cases hstep
      exact lookupInv_switch h ht hjava

end LoaderGraph

end TraceJvm
