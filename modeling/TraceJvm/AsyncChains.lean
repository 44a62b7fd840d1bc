import Mathlib.Data.List.Forall2
import TraceJvm.Lib.Transition

/-! The flag `is_async_suspended` of the frames and the async stack of a thread. The interpreter
handles chains of calls; a chain that is suspended leaves one continuation behind, and the chains
around it leave theirs on top of it. -/
namespace TraceJvm

open Transition

/-- `pnt` of a `continuation_frame`. -/
inductive ContinuationPoint where
  | resolve
  | monitorEnter
  | invokesigpoly
  | resumeInsn
  | debuggerPause
  | synchronizedMethod
  | runNative
  deriving DecidableEq

/-- `async_resume_impl_void` can go on from the point. -/
def ContinuationPoint.ofInsn : ContinuationPoint → Bool
  | synchronizedMethod | runNative => false
  | _ => true

inductive SynchronizedState where
  | none
  | inProgress
  | done
  deriving DecidableEq

/-- A `stack_frame`; no two frames of a thread have had the same number. -/
structure ChainFrame where
  id : ℕ
  native : Bool
  /-- The method is `ACC_SYNCHRONIZED`. -/
  synchronized : Bool
  isAsyncSuspended : Bool
  synchronizedState : SynchronizedState

/-- A `continuation_frame`. -/
structure Continuation where
  point : ContinuationPoint
  frame : ℕ

def Continuation.suits (k : Continuation) (f : ChainFrame) : Bool :=
  if f.synchronizedState = .inProgress then k.point = .synchronizedMethod
  else if f.native then k.point = .runNative
  else k.point.ofInsn

/-- Where an activation of `interpret_2` stands: before `on_frame_start`; before it looks at the
flag of the current frame; while it polls what the frame has awaited; while instructions or the
native function run; and after a frame has been popped. -/
inductive ChainPoint where
  | start
  | begin
  | resuming
  | running
  | unwinding
  deriving DecidableEq

/-- The frames that an activation of `interpret_2` handles, those above the entry frame from the
last one on. -/
structure CallChain where
  entry : ChainFrame
  above : List ChainFrame
  point : ChainPoint

namespace CallChain

/-- `current_frame` -/
def current (c : CallChain) : ChainFrame :=
  match c.above with
  | [] => c.entry
  | f :: _ => f

def setCurrent (c : CallChain) (f : ChainFrame) : CallChain :=
  match c.above with
  | [] => { c with entry := f }
  | _ :: fs => { c with above := f :: fs }

def markEntry (c : CallChain) (b : Bool) : CallChain :=
  { c with entry := { c.entry with isAsyncSuspended := b } }

def markCurrent (c : CallChain) (b : Bool) : CallChain :=
  c.setCurrent { c.current with isAsyncSuspended := b }

def setSynchronized (c : CallChain) (y : SynchronizedState) : CallChain :=
  c.setCurrent { c.current with synchronizedState := y }

def goto (c : CallChain) (p : ChainPoint) : CallChain := { c with point := p }

def frames (c : CallChain) : List ChainFrame := c.above ++ [c.entry]

end CallChain

/-- A thread: the chains whose activations are on the C stack, the innermost first, and the
suspended ones, the outermost first. The top of the async stack comes first. -/
structure ChainThread where
  active : List CallChain
  parked : List CallChain
  asyncStack : List Continuation
  nextFrame : ℕ

/-- What happens to a thread. `enter` is a call of `interpret_2` for a new frame, `reenter` one for
a chain that is suspended, `start` is `on_frame_start` with what `monitor_acquire` comes to, and
`begin` the test of the flag. Instructions push a frame (`invoke`), instructions and natives are
suspended, what an instruction has awaited is ready (`resumed`), the interpreter goes back to
`java_interpret_begin` (`again`), and the current frame ends (`finish`). -/
inductive ChainEvent where
  | enter (native synchronized : Bool)
  | reenter
  | start (ready : Bool)
  | begin
  | invoke (native synchronized : Bool)
  | suspend (point : ContinuationPoint)
  | resumed
  | again
  | finish

namespace ChainThread

def idle : ChainThread := ⟨[], [], [], 0⟩

def frames (s : ChainThread) : List ChainFrame :=
  (s.parked.reverse ++ s.active).flatMap CallChain.frames

def newFrame (s : ChainThread) (native synchronized : Bool) : ChainFrame :=
  ⟨s.nextFrame, native, synchronized, false, .none⟩

/-- `async_stack_pop` for the frame, which cannot go on from a continuation of another one. -/
def asyncStackPop (s : ChainThread) (f : ChainFrame) : Option (List Continuation) :=
  match s.asyncStack with
  | [] => none
  | k :: ks => if k.frame = f.id ∧ k.suits f then some ks else none

/-- The innermost chain is now `c`. -/
def replace (s : ChainThread) (c : CallChain) (cs : List CallChain) (ks : List Continuation) :
    ChainThread :=
  { s with active := c :: cs, asyncStack := ks }

/-- The chain `c` is suspended in its current frame: both flags are set. -/
def park (s : ChainThread) (c : CallChain) (cs : List CallChain) (point : ContinuationPoint)
    (ks : List Continuation) : ChainThread :=
  { s with
    active := cs
    parked := ((c.markCurrent true).markEntry true).goto .start :: s.parked
    asyncStack := ⟨point, c.current.id⟩ :: ks }

/-- Code that the innermost activation runs may call `interpret_2`. -/
def canEnter (s : ChainThread) : Bool :=
  match s.active with
  | [] => true
  | c :: _ => c.point ≠ .start ∧ c.point ≠ .begin

/-- Something polls the outermost suspended chain: the scheduler, or the innermost activation. -/
def canReenter (s : ChainThread) : Bool :=
  match s.active with
  | [] => true
  | c :: _ => c.point = .resuming

/-- The frame with which `interpret_2` begins when it is called for the chain. -/
def firstFrame (s : ChainThread) (c : CallChain) : Option ℕ :=
  if c.entry.isAsyncSuspended then s.asyncStack.head?.map Continuation.frame else some c.entry.id

/-- `on_frame_start`; a frame that is not synchronized, or has its monitor, starts at once. -/
def onFrameStart (s : ChainThread) (c : CallChain) (cs : List CallChain) (ready : Bool) :
    Option ChainThread :=
  if c.current.synchronized ∧ c.current.synchronizedState ≠ .done then
    let popped := if c.current.synchronizedState = .inProgress then s.asyncStackPop c.current
      else some s.asyncStack
    popped.map fun ks =>
      if ready then
        s.replace (((c.setSynchronized .done).markCurrent false).goto .begin) cs ks
      else s.park (c.setSynchronized .inProgress) cs .synchronizedMethod ks
  else if ready then some (s.replace (c.goto .begin) cs s.asyncStack)
  else none

/-- A native that is marked is resumed; `java_interpret_begin` for the other frames. -/
def beginFrame (s : ChainThread) (c : CallChain) (cs : List CallChain) : Option ChainThread :=
  if c.current.isAsyncSuspended then
    (s.asyncStackPop c.current).map fun ks =>
      s.replace ((if c.current.native then c else c.markEntry false).goto .resuming) cs ks
  else some (s.replace (c.goto .running) cs s.asyncStack)

/-- The frame of an `invoke*` instruction is pushed. -/
def pushFrame (s : ChainThread) (c : CallChain) (cs : List CallChain)
    (native synchronized : Bool) : ChainThread :=
  { s with
    active := { c with above := s.newFrame native synchronized :: c.above, point := .start } :: cs
    nextFrame := s.nextFrame + 1 }

def finishFrame (s : ChainThread) (c : CallChain) (cs : List CallChain) : ChainThread :=
  let c := if c.current.native then (c.markCurrent false).markEntry false else c
  match c.above with
  | [] => { s with active := cs }
  | _ :: fs => { s with active := { c with above := fs, point := .unwinding } :: cs }

/-- An event in the innermost chain. While chains are suspended on top of it, it can do nothing
but be suspended as well. -/
def innermostStep (s : ChainThread) (c : CallChain) (cs : List CallChain) :
    ChainEvent → Option ChainThread
  | .start ready => if c.point = .start then s.onFrameStart c cs ready else none
  | .begin => if c.point = .begin then s.beginFrame c cs else none
  | .invoke native synchronized =>
      if c.point = .running ∧ c.current.native = false ∧ s.parked = [] then
        some (s.pushFrame c cs native synchronized)
      else none
  | .suspend p =>
      if (c.point = .running ∨ c.point = .resuming) ∧
          (if c.current.native then p = .runNative else p.ofInsn) then
        some (s.park c cs p s.asyncStack)
      else none
  | .resumed =>
      if c.point = .resuming ∧ c.current.native = false ∧ s.parked = [] then
        some (s.replace ((c.markCurrent false).goto .running) cs s.asyncStack)
      else none
  | .again =>
      if (c.point = .running ∨ c.point = .unwinding) ∧ c.current.native = false ∧ s.parked = [] then
        some (s.replace (c.goto .begin) cs s.asyncStack)
      else none
  | .finish =>
      if (c.point = .running ∨ c.point = .unwinding ∨ c.point = .resuming ∧ c.current.native) ∧
          s.parked = [] then
        some (s.finishFrame c cs)
      else none
  | _ => none

end ChainThread

/-- A chain that is entered again at a frame other than its last one is not followed. -/
def chainStep (s : ChainThread) : ChainEvent → Option ChainThread
  | .enter native synchronized =>
      if s.canEnter ∧ s.parked = [] then
        some { s with
          active := ⟨s.newFrame native synchronized, [], .start⟩ :: s.active
          nextFrame := s.nextFrame + 1 }
      else none
  | .reenter =>
      match s.parked with
      | [] => none
      | c :: cs =>
          if s.canReenter ∧ s.firstFrame c = some c.current.id then
            some { s with active := c :: s.active, parked := cs }
          else none
  | e =>
      match s.active with
      | [] => none
      | c :: cs => s.innermostStep c cs e

end TraceJvm
