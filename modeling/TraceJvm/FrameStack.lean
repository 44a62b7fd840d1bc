import TraceJvm.Lib.Placement
import TraceJvm.Lib.Transition

/-! The frames on the stack of a thread: how `push_plain_frame` and `push_native_frame` lay them out
over the operands of their callers, and exactly when they keep to the buffer and to their own
parts of it. Sizes are those of the 32-bit target. -/
namespace TraceJvm
open Transition Placement List

def stackFrameSize : ℕ := 24

def stackValueSize : ℕ := 8

def nativeFrameDataSize : ℕ := 4

def nativeMaxStack : ℕ := alignUp nativeFrameDataSize stackValueSize

inductive FrameKind where
  | interpreter
  | native
  deriving DecidableEq

structure FrameCode where
  maxStack : ℕ
  maxLocals : ℕ
  frameSize : ℕ
  frameSize_eq : frameSize = stackFrameSize + maxStack * stackValueSize

def FrameCode.ofParsed (maxStack maxLocals : ℕ) : FrameCode := ⟨maxStack, maxLocals, _, rfl⟩

structure StackFrame where
  kind : FrameKind
  /-- Where the arguments begin. They are the first locals of an interpreter frame; behind those of
  a native frame lie as many slots for the handles. -/
  args : ℕ
  numLocals : ℕ
  maxStack : ℕ
  /-- The operands that are not handed over to the frame above. -/
  held : ℕ
  native_maxStack : kind = .native → maxStack = nativeMaxStack

namespace StackFrame

def address (f : StackFrame) : ℕ :=
  match f.kind with
  | .interpreter => f.args + f.numLocals * stackValueSize
  | .native => f.args + f.numLocals * stackValueSize + f.numLocals * stackValueSize

def stack (f : StackFrame) : ℕ := f.address + stackFrameSize

def usedEnd (f : StackFrame) : ℕ :=
  match f.kind with
  | .interpreter => f.stack + f.maxStack * stackValueSize
  | .native => f.stack + nativeFrameDataSize

def keptEnd (f : StackFrame) : ℕ :=
  match f.kind with
  | .interpreter => f.stack + f.held * stackValueSize
  | .native => f.usedEnd

theorem args_le_stack (f : StackFrame) : f.args ≤ f.stack := by
  unfold stack address
  split
  · omega
  · omega

theorem stack_le_keptEnd (f : StackFrame) : f.stack ≤ f.keptEnd := by
  unfold keptEnd usedEnd
  split
  · omega
  · split
    · omega
    · omega

end StackFrame

structure ThreadStack where
  frameBuffer : ℕ
  frameBufferEnd : ℕ
  frames : List StackFrame

def ThreadStack.create (buffer stackSpace : ℕ) : ThreadStack := ⟨buffer, buffer + stackSpace, []⟩

structure PushedMethod where
  isNative : Bool
  /-- Whether a native callback is registered. -/
  nativeHandle : Bool
  code : Option FrameCode

inductive PushError where
  | unsatisfiedLink
  | abstractMethod
  | stackOverflow

structure PushRun where
  raised : Option PushError
  stack : ThreadStack
  /-- Where bytes were written, and how many. -/
  written : List (ℕ × ℕ)

def createTemplateInterpreterFrame (code : FrameCode) (args : ℕ) : StackFrame where
  kind := .interpreter
  args := args
  numLocals := code.maxLocals
  maxStack := code.maxStack
  held := code.maxStack
  native_maxStack := nofun

def nativeFrame (args argc : ℕ) : StackFrame where
  kind := .native
  args := args
  numLocals := argc
  maxStack := nativeMaxStack
  held := nativeMaxStack
  native_maxStack := fun _ => rfl

namespace ThreadStack

def push (t : ThreadStack) (f : StackFrame) (kept : ℕ) : ThreadStack :=
  match t.frames with
  | [] => { t with frames := [f] }
  | caller :: below => { t with frames := f :: { caller with held := kept } :: below }

def pushNativeFrame (t : ThreadStack) (m : PushedMethod) (args argc kept : ℕ) : PushRun :=
  if m.nativeHandle = false then ⟨some .unsatisfiedLink, t, []⟩
  else
    let frame := nativeFrame args argc
    if t.frameBufferEnd < frame.address + stackFrameSize then ⟨some .stackOverflow, t, []⟩
    else
      ⟨none, t.push frame kept,
        [(frame.address, stackFrameSize), (frame.stack, nativeFrameDataSize),
          (args + argc * stackValueSize, argc * stackValueSize)]⟩

def pushPlainFrame (t : ThreadStack) (m : PushedMethod) (args kept : ℕ) : PushRun :=
  match m.code with
  | none => ⟨some .abstractMethod, t, []⟩
  | some code =>
    let frame := createTemplateInterpreterFrame code args
    if t.frameBufferEnd < frame.address + code.frameSize then ⟨some .stackOverflow, t, []⟩
    else ⟨none, t.push frame kept, [(frame.address, stackFrameSize)]⟩

def pushFrame (t : ThreadStack) (m : PushedMethod) (args argc kept : ℕ) : PushRun :=
  if m.isNative then t.pushNativeFrame m args argc kept else t.pushPlainFrame m args kept

def getNextFrameStart (t : ThreadStack) : ℕ :=
  match t.frames with
  | [] => t.frameBuffer
  | top :: _ => top.stack + top.maxStack * stackValueSize

end ThreadStack

inductive CallForm where
  | plain
  /-- `invokecallsite`, which puts the method handle in front. -/
  | callSite
  /-- `invokevirtual_signature_polymorphic` on a method handle, which puts it or its adapter in the
  place of the receiver. -/
  | methodHandle
  /-- The same on a `VarHandle`, whose method handle goes in front. -/
  | varHandle
  deriving DecidableEq

namespace CallForm

def taken : CallForm → ℕ → ℕ
  | .plain, argc | .methodHandle, argc => argc
  | .callSite, argc | .varHandle, argc => argc - 1

def prepared : CallForm → ℕ → ℕ
  | .plain, _ => 0
  | .callSite, argc => argc
  | .methodHandle, _ => 1
  | .varHandle, argc => argc + 1

end CallForm

inductive StackEvent where
  /-- A call by the top frame with so many operands on its stack. -/
  | invoke (form : CallForm) (m : PushedMethod) (depth argc : ℕ)
  | callInterpreter (m : PushedMethod) (argc : ℕ)
  /-- The top frame is left. -/
  | leave

structure CallPlace where
  method : PushedMethod
  args : ℕ
  argc : ℕ
  kept : ℕ
  /-- Up to where the caller's own part of the buffer reaches. -/
  callerEnd : ℕ
  /-- The bytes of the arguments that are written before the push. -/
  prepared : ℕ
  /-- Whether the end of the arguments is checked first. -/
  checked : Bool

namespace ThreadStack

def invokePlace (caller : StackFrame) (form : CallForm) (m : PushedMethod) (depth argc : ℕ) :
    Option CallPlace :=
  if caller.kind = .interpreter ∧ (form = .plain ∨ 0 < argc) ∧ form.taken argc ≤ depth then
    let position := depth - form.taken argc
    some {
      method := m
      args := caller.stack + position * stackValueSize
      argc := argc
      kept := position
      callerEnd := caller.stack + depth * stackValueSize
      prepared := form.prepared argc * stackValueSize
      checked := false }
  else none

def place (t : ThreadStack) (e : StackEvent) : Option CallPlace :=
  match e with
  | .invoke form m depth argc =>
    t.frames.head?.bind fun caller => invokePlace caller form m depth argc
  | .callInterpreter m argc =>
    some {
      method := m
      args := t.getNextFrameStart
      argc := argc
      kept := (t.frames.head?.map StackFrame.maxStack).getD 0
      callerEnd := t.getNextFrameStart
      prepared := argc * stackValueSize
      checked := true }
  | .leave => none

def call (t : ThreadStack) (p : CallPlace) : PushRun :=
  if p.checked ∧ t.frameBufferEnd < p.args + p.argc * stackValueSize then
    ⟨some .stackOverflow, t, []⟩
  else
    let run := t.pushFrame p.method p.args p.argc p.kept
    { run with written := (p.args, p.prepared) :: run.written }

def step (t : ThreadStack) (e : StackEvent) : Option ThreadStack :=
  match e with
  | .leave =>
    match t.frames with
    | [] => none
    | [_] => some { t with frames := [] }
    | _ :: caller :: below =>
      some { t with frames := { caller with held := caller.maxStack } :: below }
  | e => (t.place e).map fun p => (t.call p).stack

/-- The areas of the frames lie in the buffer, and none reaches into what a frame below it keeps. -/
structure Placed (t : ThreadStack) : Prop where
  within : ∀ f ∈ t.frames, t.frameBuffer ≤ f.args ∧ f.usedEnd ≤ t.frameBufferEnd
  apart : t.frames.Pairwise fun newer older => older.keptEnd ≤ newer.args

/-- Where a call raises a StackOverflowError, the frames are as they were, and nothing was written
in front of the end of the caller's part. -/
def FailsCleanly (t : ThreadStack) (e : StackEvent) : Prop :=
  ∀ p, t.place e = some p → (t.call p).raised = some .stackOverflow →
    (t.call p).stack = t ∧ ∀ w ∈ (t.call p).written, w.2 = 0 ∨ p.callerEnd ≤ w.1

end ThreadStack

/-- Where a linked native method finds room for the header of its frame, it finds room for the data
behind the header as well. -/
def PushedMethod.DataFits (m : PushedMethod) (args argc limit : ℕ) : Prop :=
  m.isNative = true → m.nativeHandle = true → (nativeFrame args argc).stack ≤ limit →
    (nativeFrame args argc).usedEnd ≤ limit

def PushedMethod.HasRoom (m : PushedMethod) (args argc limit : ℕ) : Prop :=
  if m.isNative = true then m.nativeHandle = true → (nativeFrame args argc).stack ≤ limit
  else ∀ code, m.code = some code → (createTemplateInterpreterFrame code args).usedEnd ≤ limit

def ThreadStack.DataFits (t : ThreadStack) (e : StackEvent) : Prop :=
  ∀ p, t.place e = some p → p.method.DataFits p.args p.argc t.frameBufferEnd

/-- A call that moves or replaces its operands finds room for its frame. -/
def ThreadStack.SiteFits (t : ThreadStack) : StackEvent → Prop
  | .invoke form m depth argc =>
    form ≠ .plain → 0 < form.taken argc → ∀ p, t.place (.invoke form m depth argc) = some p →
      m.HasRoom p.args argc t.frameBufferEnd
  | _ => True

namespace ThreadStack

variable {t t' : ThreadStack} {m : PushedMethod} {args argc kept : ℕ}

/-! ### One push -/

theorem template_usedEnd (code : FrameCode) (args : ℕ) :
    (createTemplateInterpreterFrame code args).usedEnd =
      (createTemplateInterpreterFrame code args).address + code.frameSize := by
  rw [code.frameSize_eq, ← Nat.add_assoc]
  rfl

/-- A push either raises and leaves everything as it was, with an overflow where there is no room,
or it puts a frame on top that begins with the arguments. -/
theorem pushFrame_cases (t : ThreadStack) (m : PushedMethod) (args argc kept : ℕ) :
    (∃ e, t.pushFrame m args argc kept = ⟨some e, t, []⟩ ∧
      (e = .stackOverflow ↔ ¬ m.HasRoom args argc t.frameBufferEnd) ∧
      m.DataFits args argc t.frameBufferEnd) ∨
    ∃ f w, t.pushFrame m args argc kept = ⟨none, t.push f kept, w⟩ ∧ f.args = args ∧
      m.HasRoom args argc t.frameBufferEnd ∧
      (f.usedEnd ≤ t.frameBufferEnd ↔ m.DataFits args argc t.frameBufferEnd) := by
  unfold pushFrame PushedMethod.HasRoom PushedMethod.DataFits
  by_cases hnative : m.isNative = true
  · rw [if_pos hnative, if_pos hnative, pushNativeFrame]
    by_cases hlinked : m.nativeHandle = false
    · rw [if_pos hlinked]
      exact .inl ⟨_, rfl, by simp [hlinked], by simp [hlinked]⟩
    · have hhandle : m.nativeHandle = true := by simpa using hlinked
      rw [if_neg hlinked]
      by_cases hroom : t.frameBufferEnd < (nativeFrame args argc).stack
      · have hover : ¬ (nativeFrame args argc).stack ≤ t.frameBufferEnd := Nat.not_le_of_lt hroom
        exact .inl ⟨_, if_pos hroom, by simp [hhandle, hover], fun _ _ hin => absurd hin hover⟩
      · have hin : (nativeFrame args argc).stack ≤ t.frameBufferEnd := Nat.le_of_not_lt hroom
        exact .inr ⟨nativeFrame args argc, _, if_neg hroom, rfl, fun _ => hin,
          by simp [hnative, hhandle, hin]⟩
  · rw [if_neg hnative, if_neg hnative, pushPlainFrame]
    have hplain : m.DataFits args argc t.frameBufferEnd := fun h => absurd h hnative
    cases hcode : m.code with
    | none => exact .inl ⟨_, rfl, by simp, hplain⟩
    | some code =>
      have hused := template_usedEnd code args
      by_cases hroom : t.frameBufferEnd <
          (createTemplateInterpreterFrame code args).address + code.frameSize
      · exact .inl ⟨_, if_pos hroom, by simp [hused, hroom], hplain⟩
      · have hin := Nat.le_of_not_lt hroom
        exact .inr ⟨createTemplateInterpreterFrame code args, _, if_neg hroom, rfl,
          by simp [hused, hin], by simp [hused, hin, hnative]⟩

/-! ### One call -/

theorem place_invoke {form : CallForm} {m : PushedMethod} {depth argc : ℕ} {p : CallPlace}
    (h : t.place (.invoke form m depth argc) = some p) :
    ∃ caller below, t.frames = caller :: below ∧ caller.kind = .interpreter ∧
      form.taken argc ≤ depth ∧
      p = {
        method := m
        args := caller.stack + (depth - form.taken argc) * stackValueSize
        argc := argc
        kept := depth - form.taken argc
        callerEnd := caller.stack + depth * stackValueSize
        prepared := form.prepared argc * stackValueSize
        checked := false } := by
  obtain ⟨caller, hcaller, hplace⟩ := Option.bind_eq_some_iff.mp h
  obtain ⟨below, hframes⟩ := head?_eq_some_iff.mp hcaller
  unfold invokePlace at hplace
  split at hplace
  · rename_i henabled
    cases hplace
    exact ⟨caller, below, hframes, henabled.1, henabled.2.2, rfl⟩
  · cases hplace

variable {e : StackEvent}

/-- The arguments lie behind what the caller keeps. -/
theorem place_args {p : CallPlace} (h : t.place e = some p) : match t.frames with
    | [] => t.frameBuffer ≤ p.args
    | caller :: _ => ({ caller with held := p.kept } : StackFrame).keptEnd ≤ p.args := by
  cases e with
  | leave => cases h
  | invoke form m depth argc =>
    obtain ⟨caller, below, hframes, hkind, _, rfl⟩ := place_invoke h
    rw [hframes]
    simp [StackFrame.keptEnd, StackFrame.stack, StackFrame.address, hkind]
  | callInterpreter m argc =>
    cases h
    unfold getNextFrameStart
    cases t.frames with
    | nil => exact le_rfl
    | cons caller below =>
      cases hkind : caller.kind with
      | interpreter =>
        simp [StackFrame.keptEnd, StackFrame.stack, StackFrame.address, hkind]
      | native =>
        have hslots := caller.native_maxStack hkind
        simp [StackFrame.keptEnd, StackFrame.usedEnd, StackFrame.stack, StackFrame.address, hkind,
          hslots, nativeMaxStack, nativeFrameDataSize, stackValueSize, alignUp]

/-- The frames lie in order: this holds of every state that the calls lead to. -/
structure Ordered (t : ThreadStack) : Prop where
  above : ∀ f ∈ t.frames, t.frameBuffer ≤ f.args
  apart : t.frames.Pairwise fun newer older => older.keptEnd ≤ newer.args

theorem Ordered.placed_iff (h : t.Ordered) :
    t.Placed ↔ ∀ f ∈ t.frames, f.usedEnd ≤ t.frameBufferEnd :=
  ⟨fun hp f hf => (hp.within f hf).2, fun hend => ⟨fun f hf => ⟨h.above f hf, hend f hf⟩, h.apart⟩⟩

theorem Ordered.push {p : CallPlace} {f : StackFrame} (h : t.Ordered)
    (hp : t.place e = some p) (hf : f.args = p.args) : (t.push f p.kept).Ordered := by
  have hargs := place_args hp
  have habove := h.above
  have hapart := h.apart
  unfold ThreadStack.push
  cases hframes : t.frames with
  | nil =>
    rw [hframes] at hargs
    refine ⟨fun g hg => ?_, pairwise_singleton _ _⟩
    obtain rfl : g = f := by simpa using hg
    exact hf ▸ hargs
  | cons caller below =>
    rw [hframes] at hargs habove hapart
    obtain ⟨hbelow, hrest⟩ := pairwise_cons.mp hapart
    have hcaller : t.frameBuffer ≤ caller.args := habove caller (mem_cons_self ..)
    have hself : caller.args ≤ f.args := by
      have hstack := StackFrame.args_le_stack { caller with held := p.kept }
      have hkept := StackFrame.stack_le_keptEnd { caller with held := p.kept }
      rw [hf]
      exact hstack.trans (hkept.trans hargs)
    constructor
    · intro g hg
      rcases mem_cons.mp hg with rfl | hg
      · exact hcaller.trans hself
      · rcases mem_cons.mp hg with rfl | hg
        · exact hcaller
        · exact habove g (mem_cons_of_mem _ hg)
    · rw [pairwise_cons, pairwise_cons]
      refine ⟨fun g hg => ?_, hbelow, hrest⟩
      rcases mem_cons.mp hg with rfl | hg
      · rw [hf]
        exact hargs
      · exact (hbelow g hg).trans hself

theorem push_used_iff {f : StackFrame} (h : ∀ g ∈ t.frames, g.usedEnd ≤ t.frameBufferEnd) :
    (∀ g ∈ (t.push f kept).frames, g.usedEnd ≤ t.frameBufferEnd) ↔
      f.usedEnd ≤ t.frameBufferEnd := by
  unfold push
  cases hframes : t.frames with
  | nil => simp
  | cons caller below =>
    rw [hframes] at h
    obtain ⟨hcaller, hbelow⟩ := forall_mem_cons.mp h
    simp only [forall_mem_cons]
    constructor
    · intro hall
      exact hall.1
    · intro hf
      exact ⟨hf, hcaller, hbelow⟩

theorem call_cases (t : ThreadStack) (p : CallPlace) :
    ((t.call p).stack = t ∧ p.method.DataFits p.args p.argc t.frameBufferEnd) ∨
    ∃ f, (t.call p).stack = t.push f p.kept ∧ f.args = p.args ∧
      (f.usedEnd ≤ t.frameBufferEnd ↔ p.method.DataFits p.args p.argc t.frameBufferEnd) := by
  unfold call
  split
  · rename_i hchecked
    refine .inl ⟨rfl, fun _ _ hin => ?_⟩
    have hstack : p.args + p.argc * stackValueSize ≤ (nativeFrame p.args p.argc).stack := by
      simp only [StackFrame.stack, StackFrame.address, nativeFrame]
      omega
    omega
  · rcases pushFrame_cases t p.method p.args p.argc p.kept with
      ⟨e, he, -, hfits⟩ | ⟨f, w, hf, hargs, -, hfits⟩
    · rw [he]
      exact .inl ⟨rfl, hfits⟩
    · rw [hf]
      exact .inr ⟨f, rfl, hargs, hfits⟩

/-- A call fails cleanly unless it moves operands of a caller for whose callee there is no room. -/
theorem failsCleanly_iff (e : StackEvent) : t.FailsCleanly e ↔ t.SiteFits e := by
  cases e with
  | leave => simp [FailsCleanly, SiteFits, place]
  | callInterpreter m argc =>
    refine iff_of_true ?_ trivial
    rintro p hp hover
    cases hp
    unfold call at hover ⊢
    split at hover
    · rename_i hchecked
      rw [if_pos hchecked]
      exact ⟨rfl, nofun⟩
    · rename_i hchecked
      rw [if_neg hchecked]
      rcases pushFrame_cases t m t.getNextFrameStart argc
        ((t.frames.head?.map StackFrame.maxStack).getD 0) with ⟨e, he, -⟩ | ⟨f, w, hf, -⟩
      · rw [he]
        exact ⟨rfl, by simp⟩
      · rw [hf] at hover
        cases hover
  | invoke form m depth argc =>
    unfold FailsCleanly SiteFits
    constructor
    · intro hclean hform htaken p hp
      by_contra hroom
      obtain ⟨caller, below, -, -, hdepth, rfl⟩ := place_invoke hp
      have hrun := hclean _ hp
      rcases pushFrame_cases t m _ argc (depth - form.taken argc) with
        ⟨e, he, hover, -⟩ | ⟨f, w, -, -, h, -⟩
      · obtain rfl := hover.mpr hroom
        simp only [call, Bool.false_eq_true, false_and, if_false, he] at hrun
        have hmeets := (hrun trivial).2 _ (mem_singleton_self _)
        cases form with
        | plain => exact hform rfl
        | callSite | methodHandle | varHandle =>
          simp only [CallForm.taken, CallForm.prepared, stackValueSize] at *
          omega
      · exact hroom h
    · intro hfits p hp
      have hsite := fun hform htaken => hfits hform htaken p hp
      obtain ⟨caller, below, -, -, hdepth, rfl⟩ := place_invoke hp
      intro hover
      unfold call at hover ⊢
      rcases pushFrame_cases t m (caller.stack + (depth - form.taken argc) * stackValueSize) argc
        (depth - form.taken argc) with ⟨e, he, hroom, -⟩ | ⟨f, w, hf, -⟩
      · simp only [Bool.false_eq_true, false_and, if_false, he] at hover ⊢
        obtain rfl : e = .stackOverflow := by simpa using hover
        have hnone := hroom.mp rfl
        refine ⟨trivial, fun w hw => ?_⟩
        obtain rfl : w = (caller.stack + (depth - form.taken argc) * stackValueSize,
          form.prepared argc * stackValueSize) := by simpa using hw
        by_cases hform : form = .plain
        · subst hform
          exact .inl (Nat.zero_mul _)
        · have htaken : form.taken argc = 0 := by
            by_contra htaken
            exact hnone (hsite hform (Nat.pos_of_ne_zero htaken))
          right
          simp [htaken]
      · simp [hf] at hover

/-! ### Runs -/

theorem step_call (h : t.step e = some t') (he : e ≠ .leave) :
    ∃ p, t.place e = some p ∧ t' = (t.call p).stack := by
  have hmap : (t.place e).map (fun p => (t.call p).stack) = some t' := by
    cases e with
    | leave => exact absurd rfl he
    | invoke form m depth argc => exact h
    | callInterpreter m argc => exact h
  obtain ⟨p, hp, hcall⟩ := Option.map_eq_some_iff.mp hmap
  exact ⟨p, hp, hcall.symm⟩

theorem step_leave (h : t.step .leave = some t') :
    ∃ top below, t.frames = top :: below ∧ t'.frameBuffer = t.frameBuffer ∧
      t'.frameBufferEnd = t.frameBufferEnd ∧
      (t'.frames = [] ∨ ∃ caller rest, below = caller :: rest ∧
        t'.frames = { caller with held := caller.maxStack } :: rest) := by
  unfold step at h
  dsimp only at h
  split at h
  · cases h
  · rename_i top hframes
    cases h
    exact ⟨top, [], hframes, rfl, rfl, .inl rfl⟩
  · rename_i top caller rest hframes
    cases h
    exact ⟨top, _, hframes, rfl, rfl, .inr ⟨caller, rest, rfl, rfl⟩⟩

theorem push_buffer (t : ThreadStack) (f : StackFrame) (kept : ℕ) :
    (t.push f kept).frameBuffer = t.frameBuffer ∧
      (t.push f kept).frameBufferEnd = t.frameBufferEnd := by
  unfold push
  split
  · exact ⟨rfl, rfl⟩
  · exact ⟨rfl, rfl⟩

theorem Ordered.step (h : t.Ordered) (hstep : t.step e = some t') : t'.Ordered := by
  by_cases he : e = .leave
  · subst he
    obtain ⟨top, below, hframes, hbuffer, -, hnil | ⟨caller, rest, rfl, hrest⟩⟩ := step_leave hstep
    · exact ⟨by simp [hnil], by simp [hnil]⟩
    · have habove := h.above
      have hapart := h.apart
      rw [hframes] at habove hapart
      constructor
      · rw [hrest, hbuffer]
        intro g hg
        rcases mem_cons.mp hg with rfl | hg
        · exact habove caller (by simp)
        · exact habove g (by simp [hg])
      · rw [hrest, pairwise_cons]
        exact pairwise_cons.mp (pairwise_cons.mp hapart).2
  · obtain ⟨p, hp, rfl⟩ := step_call hstep he
    rcases call_cases t p with ⟨hsame, -⟩ | ⟨f, hpush, hargs, -⟩
    · rw [hsame]
      exact h
    · rw [hpush]
      exact h.push hp hargs

/-- A step keeps the frames in their places exactly if the data of a native frame fits. -/
theorem Ordered.step_placed_iff (h : t.Ordered) (hplaced : t.Placed)
    (hstep : t.step e = some t') : t'.Placed ↔ t.DataFits e := by
  have hused := (h.placed_iff).mp hplaced
  rw [(h.step hstep).placed_iff]
  by_cases he : e = .leave
  · subst he
    refine iff_of_true ?_ nofun
    obtain ⟨top, below, hframes, -, hend, hnil | ⟨caller, rest, rfl, hrest⟩⟩ := step_leave hstep
    · simp [hnil]
    · rw [hrest, hend]
      rw [hframes] at hused
      intro g hg
      rcases mem_cons.mp hg with rfl | hg
      · exact hused caller (by simp)
      · exact hused g (by simp [hg])
  · obtain ⟨p, hp, rfl⟩ := step_call hstep he
    have hdata : t.DataFits e ↔ p.method.DataFits p.args p.argc t.frameBufferEnd := by
      simp [DataFits, hp]
    rw [hdata]
    rcases call_cases t p with ⟨hsame, hfits⟩ | ⟨f, hpush, -, hfits⟩
    · rw [hsame]
      exact iff_of_true hused hfits
    · rw [hpush, (push_buffer t f p.kept).2, push_used_iff hused]
      exact hfits

theorem ordered_create (buffer stackSpace : ℕ) : (create buffer stackSpace).Ordered :=
  ⟨nofun, List.Pairwise.nil⟩

theorem placed_create (buffer stackSpace : ℕ) : (create buffer stackSpace).Placed :=
  ⟨nofun, List.Pairwise.nil⟩

/-- In a run of calls and returns the frames are in their places throughout, and each overflow is
clean, exactly if the data of each native frame fits and each call that moves its operands finds
room. -/
theorem frames_placed_iff {buffer stackSpace : ℕ} {events : List StackEvent} {t : ThreadStack}
    (h : run step (create buffer stackSpace) events = some t) :
    (Throughout step Placed (create buffer stackSpace) events ∧
        Along step FailsCleanly (create buffer stackSpace) events) ↔
      Along step (fun t e => t.DataFits e ∧ t.SiteFits e) (create buffer stackSpace) events := by
  have hplaced : Throughout step Placed (create buffer stackSpace) events ↔
      Along step DataFits (create buffer stackSpace) events :=
    throughout_iff_along Placed Ordered (fun v a v' hv hstep => hv.step hstep)
      (fun v a v' hv hp hstep => hv.step_placed_iff hp hstep) (ordered_create ..)
      (placed_create ..) h
  have hclean : FailsCleanly = SiteFits := by
    funext t e
    exact propext (failsCleanly_iff e)
  rw [hplaced, hclean, along_and]

/-- A method whose frame leaves 24 bytes of a buffer of the default size, and a native method. -/
def deepMethod : PushedMethod := ⟨false, false, some (FrameCode.ofParsed 65530 0)⟩

def nativeMethod : PushedMethod := ⟨true, true, none⟩

/-- The header of the second frame ends where the buffer does, and its data lies behind. -/
theorem nativeAtEnd_not_placed :
    ¬ Throughout step Placed (create 65536 524288)
      [.callInterpreter deepMethod 0, .invoke .plain nativeMethod 65530 0] := by
  intro h
  have hlast := h [.callInterpreter deepMethod 0, .invoke .plain nativeMethod 65530 0] [] _
    (append_nil _).symm rfl
  have hend := (hlast.within _ (mem_cons_self ..)).2
  have hused : (nativeFrame 589800 0).usedEnd ≤ 589824 := hend
  exact absurd hused (by decide)

theorem twoCalls_placed :
    Throughout step Placed (create 65536 524288)
        [.callInterpreter deepMethod 0, .invoke .plain nativeMethod 0 0, .leave] ∧
      Along step FailsCleanly (create 65536 524288)
        [.callInterpreter deepMethod 0, .invoke .plain nativeMethod 0 0, .leave] := by
  have hrun : ∃ t, run step (create 65536 524288)
      [.callInterpreter deepMethod 0, .invoke .plain nativeMethod 0 0, .leave] = some t := ⟨_, rfl⟩
  obtain ⟨t, ht⟩ := hrun
  apply (frames_placed_iff ht).mpr
  rw [along_cons rfl, along_cons rfl, along_cons rfl]
  refine ⟨⟨?_, trivial⟩, ⟨?_, ?_⟩, ⟨nofun, trivial⟩, ?_⟩
  · intro p hp
    cases hp
    exact nofun
  · intro p hp
    obtain ⟨caller, below, hframes, -, -, rfl⟩ := place_invoke hp
    cases hframes
    intro _ _ _
    decide
  · exact fun hform => absurd rfl hform
  · intro before e after u hnil
    exact absurd (congrArg List.length hnil) (by simp)

end ThreadStack
end TraceJvm
