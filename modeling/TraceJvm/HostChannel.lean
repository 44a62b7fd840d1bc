import TraceJvm.Lib.Transition
import Mathlib.Algebra.Order.Ring.Int

/-! The channel by which a worker calls the host and waits for the answer: a state word, a length
word and a payload that the threads of the workers and of the host share. Each access to the shared
memory is a step of its own. -/
namespace TraceJvm

inductive ChannelWord where
  | idle
  | response
  | failure
  | closed
  | pending
  deriving DecidableEq

/-- `TraceJVMHostChannel`, as `makeTraceJVMHostChannel` makes it. -/
structure HostChannel where
  byteCapacity : ℕ
  minimum : 256 ≤ byteCapacity
  safe : byteCapacity < 2 ^ 53

/-- `makeTraceJVMHostChannel`; none stands for the `RangeError`. -/
def makeTraceJVMHostChannel (byteCapacity : ℕ) : Option HostChannel :=
  if h : 256 ≤ byteCapacity ∧ byteCapacity < 2 ^ 53 then some ⟨byteCapacity, h.1, h.2⟩ else none

/-- `encode` and `decode` on the values `V`, where `C` are the causes that can be thrown. -/
structure HostCodec (V C : Type) where
  encode : V → Except C (List UInt8)
  decode : List UInt8 → Except C V
  /-- The record that `failTraceJVMHostCall` sends. -/
  failure : C → V
  /-- The record of a value that could not be encoded. -/
  unserializable : C → V

/-- A call of `respondToTraceJVMHostCall` or `failTraceJVMHostCall`. -/
inductive HostAnswer (V C : Type) where
  | respond (value : V)
  | fail (cause : C)

/-- How a `dispatchSync` ends. -/
inductive DispatchResult (V C : Type) where
  | returned (value : V)
  /-- The error that is made of a failure record. -/
  | failed (record : V)
  | undecodable (cause : C)
  | notifyThrew (cause : C)
  | closed
  | concurrent
  | closedDuring
  | invalidLength
  | invalidState
  deriving DecidableEq

def DispatchResult.Throws {V C : Type} (x : DispatchResult V C) : Prop := ∀ v, x ≠ .returned v

/-- The last part of `dispatchSync`. -/
def DispatchResult.ofValue {V C : Type} (completed : ChannelWord) (value : Except C V) :
    DispatchResult V C :=
  match value with
  | .error cause => .undecodable cause
  | .ok value =>
      if completed = .failure then .failed value
      else if completed = .response then .returned value
      else .invalidState

def oversizedText (byteCapacity : ℕ) : String :=
  "\x7b\"value\":\x7b\"name\":\"RangeError\",\"message\":\"TraceJVM host response exceeded " ++
    byteCapacity.repr ++ " bytes.\"\x7d\x7d"

/-- `TextEncoder` on a text of ASCII characters. -/
def asciiBytes (text : String) : List UInt8 := text.toList.map fun c => c.toNat.toUInt8

/-- A number as an element of an `Int32Array`. -/
def toInt32 (n : ℕ) : ℤ := Int.bmod n (2 ^ 32)

namespace HostCodec

variable {V C : Type} (J : HostCodec V C)

/-- The state and the bytes that `write` sends, none where it throws. -/
def written (capacity : ℕ) (answer : HostAnswer V C) : Option (ChannelWord × List UInt8) :=
  let (state, value) : ChannelWord × V :=
    match answer with
    | .respond value => (.response, value)
    | .fail cause => (.failure, J.failure cause)
  let encoded : Option (ChannelWord × List UInt8) :=
    match J.encode value with
    | .ok bytes => some (state, bytes)
    | .error cause =>
        match J.encode (J.unserializable cause) with
        | .ok bytes => some (.failure, bytes)
        | .error _ => none
  encoded.map fun e =>
    if capacity < e.2.length then (.failure, asciiBytes (oversizedText capacity)) else e

def outcome (capacity : ℕ) (answer : HostAnswer V C) : Option (DispatchResult V C) :=
  (J.written capacity answer).map fun e =>
    let length := toInt32 e.2.length
    if length < 0 ∨ (capacity : ℤ) < length then .invalidLength
    else DispatchResult.ofValue e.1 (J.decode (e.2.take length.toNat))

end HostCodec

/-- Where a thread is in `dispatchSync`; `r` is the number of the call. -/
inductive CallerPc (V C : Type) where
  | out
  /-- Before the store to the length word. -/
  | reserved (r : ℕ)
  | notifying (r : ℕ)
  | resetting (r : ℕ) (cause : C)
  /-- Before the load in the condition of the loop. -/
  | loading (r : ℕ)
  /-- Before `Atomics.wait`. -/
  | entering (r : ℕ)
  | blocked (r : ℕ)
  /-- Before the load of the completed state. -/
  | completing (r : ℕ)
  /-- Before the load of the length. -/
  | sizing (r : ℕ) (completed : ChannelWord)
  | refusing (r : ℕ) (completed : ChannelWord)
  | reading (r : ℕ) (completed : ChannelWord) (length : ℕ)
  | finishing (r : ℕ) (completed : ChannelWord) (value : Except C V)

/-- Where the host is in the `write` for a request. -/
inductive WriterPc (V C : Type) where
  | out
  | started (answer : HostAnswer V C)
  /-- Before the load of the length. -/
  | encoded (state : ChannelWord) (bytes : List UInt8)
  | filling (state : ChannelWord) (bytes : List UInt8) (stop : ℤ)
  | setting (state : ChannelWord) (bytes : List UInt8)
  | storing (state : ChannelWord) (bytes : List UInt8)
  | swapping (state : ChannelWord)
  | waking

/-- The shared memory, the threads in `dispatchSync` and the host. `posted` are the requests whose
messages are on the way, `closing` counts the calls of `closeTraceJVMHostChannel` before their
`notify`. No step reads `results`, the calls that have ended, and `causes`, what `notify` has
thrown. -/
structure ChannelVm (V C : Type) where
  word : ChannelWord
  length : ℤ
  payload : List UInt8
  callers : ℕ → CallerPc V C
  nextCall : ℕ
  posted : List ℕ
  received : List ℕ
  answers : ℕ → Option (HostAnswer V C)
  writers : ℕ → WriterPc V C
  closing : ℕ
  results : List (ℕ × DispatchResult V C)
  causes : ℕ → Option C

/-- The steps of a thread that calls and of the host. A thread calls `dispatchSync`, its `notify`
posts the message or throws without having posted it, and `caller` is any other step of it. -/
inductive ChannelEvent (V C : Type) where
  | dispatchSync (t : ℕ)
  | notified (t : ℕ)
  | notifyThrows (t : ℕ) (cause : C)
  | caller (t : ℕ)
  | receive (r : ℕ)
  | answer (r : ℕ) (answer : HostAnswer V C)
  | write (r : ℕ)
  | close
  | closeNotifies

namespace ChannelVm

variable {V C : Type}

def start (V C : Type) (capacity : ℕ) : ChannelVm V C where
  word := .idle
  length := 0
  payload := List.replicate capacity 0
  callers _ := .out
  nextCall := 0
  posted := []
  received := []
  answers _ := none
  writers _ := .out
  closing := 0
  results := []
  causes _ := none

variable (s : ChannelVm V C)

/-- `Atomics.compareExchange` on the state word. -/
def compareExchange (expected replacement : ChannelWord) : ChannelWord :=
  if s.word = expected then replacement else s.word

def move (t : ℕ) (pc : CallerPc V C) : ChannelVm V C :=
  { s with callers := Function.update s.callers t pc }

def finish (t r : ℕ) (word : ChannelWord) (x : DispatchResult V C) : ChannelVm V C :=
  { s with
    word := word
    callers := Function.update s.callers t .out
    results := (r, x) :: s.results }

/-- `Atomics.notify` on the state word. -/
def wake : ChannelVm V C :=
  { s with callers := fun t =>
      match s.callers t with
      | .blocked r => .loading r
      | pc => pc }

/-- The beginning of `dispatchSync`. -/
def dispatchSync (t : ℕ) : ChannelVm V C :=
  let r := s.nextCall
  let s := { s with nextCall := r + 1 }
  match s.word with
  | .idle => { s.move t (.reserved r) with word := .pending }
  | .closed => s.finish t r s.word .closed
  | _ => s.finish t r s.word .concurrent

/-- A step of a thread in `dispatchSync`. -/
def callerStep (J : HostCodec V C) (capacity t : ℕ) : Option (ChannelVm V C) :=
  match s.callers t with
  | .out | .notifying _ | .blocked _ => none
  | .reserved r => some { s.move t (.notifying r) with length := 0 }
  | .resetting r cause =>
      some (s.finish t r (s.compareExchange .pending .idle) (.notifyThrew cause))
  | .loading r => some (s.move t (if s.word = .pending then .entering r else .completing r))
  | .entering r => some (s.move t (if s.word = .pending then .blocked r else .loading r))
  | .completing r => some (s.move t (.sizing r s.word))
  | .sizing r completed =>
      if completed = .closed then some (s.finish t r s.word .closedDuring)
      else if s.length < 0 ∨ (capacity : ℤ) < s.length then some (s.move t (.refusing r completed))
      else some (s.move t (.reading r completed s.length.toNat))
  | .refusing r completed =>
      some (s.finish t r (s.compareExchange completed .idle) .invalidLength)
  | .reading r completed length =>
      some (s.move t (.finishing r completed (J.decode (s.payload.take length))))
  | .finishing r completed value =>
      some (s.finish t r (s.compareExchange completed .idle) (.ofValue completed value))

/-- `payload.fill(0, 0, stop)`, where a negative `stop` counts from the end. -/
def fill (payload : List UInt8) (stop : ℤ) : List UInt8 :=
  let stop := if stop < 0 then (payload.length + stop).toNat else min stop.toNat payload.length
  List.replicate stop 0 ++ payload.drop stop

def moveWriter (r : ℕ) (pc : WriterPc V C) : ChannelVm V C :=
  { s with writers := Function.update s.writers r pc }

/-- A step of the host in `write`. -/
def writerStep (J : HostCodec V C) (capacity r : ℕ) : Option (ChannelVm V C) :=
  match s.writers r with
  | .out => none
  | .started answer => some (s.moveWriter r (
      if s.word = .pending then
        match J.written capacity answer with
        | some (state, bytes) => .encoded state bytes
        | none => .out
      else .out))
  | .encoded state bytes => some (s.moveWriter r (.filling state bytes (min s.length capacity)))
  | .filling state bytes stop =>
      some { s.moveWriter r (.setting state bytes) with payload := fill s.payload stop }
  | .setting state bytes =>
      if bytes.length ≤ s.payload.length then
        some { s.moveWriter r (.storing state bytes) with
          payload := bytes ++ s.payload.drop bytes.length }
      else some (s.moveWriter r .out)
  | .storing state bytes =>
      some { s.moveWriter r (.swapping state) with length := toInt32 bytes.length }
  | .swapping state =>
      if s.word = .pending then some { s.moveWriter r .waking with word := state }
      else some (s.moveWriter r .out)
  | .waking => some (s.moveWriter r .out).wake

end ChannelVm

def channelStep {V C : Type} (J : HostCodec V C) (capacity : ℕ) (s : ChannelVm V C) :
    ChannelEvent V C → Option (ChannelVm V C)
  | .dispatchSync t =>
      match s.callers t with
      | .out => some (s.dispatchSync t)
      | _ => none
  | .notified t =>
      match s.callers t with
      | .notifying r => some { s.move t (.loading r) with posted := r :: s.posted }
      | _ => none
  | .notifyThrows t cause =>
      match s.callers t with
      | .notifying r => some { s.move t (.resetting r cause) with
          causes := Function.update s.causes r (some cause) }
      | _ => none
  | .caller t => s.callerStep J capacity t
  | .receive r =>
      if r ∈ s.posted then some { s with
        posted := s.posted.filter fun q => q ≠ r
        received := r :: s.received }
      else none
  | .answer r answer =>
      if r ∈ s.received ∧ (s.answers r).isNone then
        some { s.moveWriter r (.started answer) with
          answers := Function.update s.answers r (some answer) }
      else none
  | .write r => s.writerStep J capacity r
  | .close => some { s with word := .closed, closing := s.closing + 1 }
  | .closeNotifies =>
      if 0 < s.closing then some { s.wake with closing := s.closing - 1 } else none

end TraceJvm
