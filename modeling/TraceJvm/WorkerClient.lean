import TraceJvm.Lib.Transition

/-! The clients of the two workers: the table of pending operations, the stored initialization and
the calls that wait for a promise. Any call may go on at any time after its promise has settled. -/
namespace TraceJvm

/-! ### Messages -/

inductive RequestType where
  | initializeEngine
  | run
  | initializeCompiler
  | compile
  | dispose

inductive WorkerResponse where
  | initialized
  | runResult (retirementRecommended : Bool)
  | compilerInitialized
  | compileResult
  | stream
  | hostCall
  | hostCallAsync
  | disposed
  | error
  deriving DecidableEq

inductive WorkerClient where
  /-- `TraceJVMWorkerClient`, with two of its options. -/
  | runner (hardAbort retireAutomatically : Option Bool)
  /-- `TraceJVMCompilerWorkerClient` -/
  | compiler

namespace WorkerClient

def initializeType : WorkerClient → RequestType
  | .runner _ _ => .initializeEngine
  | .compiler => .initializeCompiler

/-- The request of `run`, or of `compile`. -/
def useType : WorkerClient → RequestType
  | .runner _ _ => .run
  | .compiler => .compile

/-- `this.options.hardAbort ?? true`; a compiler is always terminated. -/
def hardAbort : WorkerClient → Bool
  | .runner hardAbort _ => hardAbort.getD true
  | .compiler => true

def retires : WorkerClient → WorkerResponse → Bool
  | .runner _ retireAutomatically, .runResult true => retireAutomatically.getD true
  | _, _ => false

def servesHostCall : WorkerClient → WorkerResponse → Bool
  | .runner _ _, .hostCall => true
  | .runner _ _, .hostCallAsync => true
  | _, _ => false

end WorkerClient

/-! ### The state of a client -/

inductive Settlement where
  | resolved
  | rejected
  deriving DecidableEq

structure ClientOperation where
  type : RequestType
  worker : ℕ
  signal : Option ℕ
  /-- The calls of `resolve` and `reject`; the first one settles the promise. -/
  settlements : List Settlement

def ClientOperation.settle (op : ClientOperation) (r : Settlement) : ClientOperation :=
  { op with settlements := op.settlements ++ [r] }

/-- The promise that `request` returns. -/
inductive RequestPromise where
  | operation (id : ℕ)
  /-- `Promise.reject(abortError())` -/
  | refused (k : ℕ)
  deriving DecidableEq

inductive ClientCall where
  /-- `own` if the call has stored the promise as the gate. -/
  | initializing (promise : RequestPromise) (own : Bool)
  /-- `run` or `compile`, before its own request. -/
  | opening (promise : RequestPromise) (own : Bool) (signal : Option ℕ)
  | running (promise : RequestPromise)
  | disposing (promise : RequestPromise)

def ClientCall.promise : ClientCall → RequestPromise
  | .initializing promise _ => promise
  | .opening promise _ _ => promise
  | .running promise => promise
  | .disposing promise => promise

inductive WorkerMessage where
  | posted (worker id : ℕ) (type : RequestType)
  | cancelled (worker id targetId : ℕ)
  /-- A response that has resolved the operation. -/
  | received (worker id : ℕ)

def WorkerMessage.worker : WorkerMessage → ℕ
  | .posted worker _ _ => worker
  | .cancelled worker _ _ => worker
  | .received worker _ => worker

structure ClientState where
  worker : Option ℕ
  /-- The number of instances created so far, which are named by it. -/
  workers : ℕ
  initializationGate : Option RequestPromise
  nextId : ℕ
  refusals : ℕ
  /-- The keys of the table. -/
  pending : List ℕ
  operations : ℕ → Option ClientOperation
  /-- The signals that have been aborted. -/
  aborted : List ℕ
  calls : List ClientCall
  /-- The last message first. -/
  log : List WorkerMessage

/-- Whether `createWorker` and `postMessage` return. -/
structure Posting where
  created : Bool
  posted : Bool

namespace ClientState

def initial : ClientState := ⟨none, 0, none, 0, 0, [], fun _ => none, [], [], []⟩

/-- `signal?.aborted` -/
def isAborted (s : ClientState) (signal : Option ℕ) : Bool :=
  signal.any fun a => s.aborted.contains a

def outcome (s : ClientState) : RequestPromise → Option Settlement
  | .operation id => (s.operations id).bind fun op => op.settlements.head?
  | .refused _ => some .rejected

def await (s : ClientState) (call : ClientCall) : ClientState :=
  { s with calls := s.calls ++ [call] }

/-! ### The methods -/

def ensureWorker (s : ClientState) (p : Posting) : Option (ℕ × ClientState) :=
  match s.worker with
  | some worker => some (worker, s)
  | none =>
    if p.created then
      some (s.workers, { s with worker := some s.workers, workers := s.workers + 1 })
    else none

/-- The promise of `request`: the entry is made before the message is posted, and stays if that
throws. -/
def post (s : ClientState) (worker : ℕ) (type : RequestType) (signal : Option ℕ)
    (posted : Bool) : ClientState :=
  let id := s.nextId + 1
  let operation := ⟨type, worker, signal, if posted then [] else [.rejected]⟩
  { s with
    nextId := id
    pending := s.pending ++ [id]
    operations := Function.update s.operations id (some operation)
    log := if posted then .posted worker id type :: s.log else s.log }

/-- No promise if `createWorker` throws. -/
def request (s : ClientState) (type : RequestType) (signal : Option ℕ) (p : Posting) :
    Option RequestPromise × ClientState :=
  if s.isAborted signal then
    (some (.refused s.refusals), { s with refusals := s.refusals + 1 })
  else
    match s.ensureWorker p with
    | none => (none, s)
    | some (worker, s') =>
      (some (.operation (s'.nextId + 1)), s'.post worker type signal p.posted)

/-- `operation.reject(error)` for every operation of the table. -/
def rejectAll (operations : ℕ → Option ClientOperation) (pending : List ℕ) : ℕ →
    Option ClientOperation :=
  fun id => if id ∈ pending then (operations id).map (·.settle .rejected) else operations id

def close (s : ClientState) (error : Bool) : ClientState :=
  { s with
    worker := none
    initializationGate := none
    pending := []
    operations := if error then rejectAll s.operations s.pending else s.operations }

def settle (s : ClientState) (id : ℕ) (r : Settlement) : ClientState :=
  { s with
    pending := s.pending.filter (· ≠ id)
    operations := Function.update s.operations id ((s.operations id).map (·.settle r)) }

def onMessage (client : WorkerClient) (s : ClientState) (worker id : ℕ) (r : WorkerResponse) :
    ClientState :=
  if client.servesHostCall r ∨ id ∉ s.pending ∨ r = .stream then s
  else if r = .error then s.settle id .rejected
  else
    let s' := { s.settle id .resolved with log := .received worker id :: s.log }
    if client.retires r ∧ s'.pending = [] then s'.close false else s'

def initializePromise (client : WorkerClient) (s : ClientState) (signal : Option ℕ)
    (p : Posting) : Option (RequestPromise × Bool) × ClientState :=
  match s.initializationGate with
  | some gate => (some (gate, false), s)
  | none =>
    match s.request client.initializeType signal p with
    | (some promise, s') => (some (promise, true), { s' with initializationGate := some promise })
    | (none, s') => (none, s')

/-- `worker.postMessage({ id: ++this.nextId, type: "cancel", targetId: id })` -/
def cancel (s : ClientState) (targetId : ℕ) : ClientState :=
  match s.worker with
  | some worker =>
    { s with
      nextId := s.nextId + 1
      log := .cancelled worker (s.nextId + 1) targetId :: s.log }
  | none => s

def listening (s : ClientState) (signal : ℕ) : List ℕ :=
  s.pending.filter fun id => (s.operations id).any fun op => op.signal = some signal

def onAbort (client : WorkerClient) (s : ClientState) (signal : ℕ) : ClientState :=
  if signal ∈ s.aborted then s
  else
    let s' := { s with aborted := signal :: s.aborted }
    if s.listening signal = [] then s'
    else if client.hardAbort then s'.close true
    else (s.listening signal).foldl cancel s'

/-- `if (this.initializationGate === promise) this.initializationGate = undefined` -/
def clearGate (s : ClientState) (promise : RequestPromise) (own : Bool) : ClientState :=
  if own ∧ s.initializationGate = some promise then { s with initializationGate := none } else s

def resume (client : WorkerClient) (s : ClientState) (p : Posting) :
    ClientCall → Settlement → ClientState
  | .initializing promise own, .rejected => s.clearGate promise own
  | .initializing _ _, .resolved => s
  | .opening promise own _, .rejected => s.clearGate promise own
  | .opening _ _ signal, .resolved =>
    match s.request client.useType signal p with
    | (some promise, s') => s'.await (.running promise)
    | (none, s') => s'
  | .running _, _ => s
  | .disposing _, _ => s.close false

end ClientState

/-! ### The steps -/

inductive ClientEvent where
  | initializeCall (signal : Option ℕ) (p : Posting)
  /-- A call of `run`, or of `compile`, whose request is valid. -/
  | useCall (signal : Option ℕ) (p : Posting)
  | disposeCall (p : Posting)
  | terminateCall
  | abort (signal : ℕ)
  /-- The event reaches the listeners of the current instance only. -/
  | message (worker id : ℕ) (r : WorkerResponse)
  | error (worker : ℕ)
  /-- A call goes on. -/
  | resume (k : ℕ) (p : Posting)

open ClientState in
def clientStep (client : WorkerClient) (s : ClientState) : ClientEvent → Option ClientState
  | .initializeCall signal p =>
    match s.initializePromise client signal p with
    | (some (promise, own), s') => some (s'.await (.initializing promise own))
    | (none, s') => some s'
  | .useCall signal p =>
    match s.initializePromise client signal p with
    | (some (promise, own), s') => some (s'.await (.opening promise own signal))
    | (none, s') => some s'
  | .disposeCall p =>
    if s.worker = none then some s
    else
      match s.request .dispose none p with
      | (some promise, s') => some (s'.await (.disposing promise))
      | (none, s') => some s'
  | .terminateCall => some (s.close true)
  | .abort signal => some (s.onAbort client signal)
  | .message worker id r =>
    if s.worker = some worker then some (s.onMessage client worker id r) else some s
  | .error worker => if s.worker = some worker then some (s.close true) else some s
  | .resume k p =>
    s.calls[k]?.bind fun call => (s.outcome call.promise).map fun r =>
      ClientState.resume client { s with calls := s.calls.eraseIdx k } p call r

end TraceJvm
