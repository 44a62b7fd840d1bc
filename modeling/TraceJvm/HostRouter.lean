import TraceJvm.Lib.OrderedMap
import TraceJvm.Lib.Transition
import Mathlib.Algebra.Order.Ring.Int

/-! `RuntimeHostRouter`: the host descriptors of a Java virtual machine are reached through tokens
of its context. A request is in flight from its translation to the answer of the host, and any other
call can come between the two. -/
namespace TraceJvm

open OrderedMap

inductive JsValue where
  | undefined
  | null
  | boolean (b : Bool)
  | integer (n : ℤ)
  /-- A number that is no integer. -/
  | double (bits : UInt64)
  | string (s : String)
  | array (xs : List JsValue)
  | object (fields : List (String × JsValue))

abbrev JsFields := List (String × JsValue)

/-- `hostCapabilityError` with the arguments of its message. -/
inductive HostError where
  | notOwned (value : JsValue) (context : ℕ)
  | invalidDescriptor
  | duplicateDescriptors
  | reusedDescriptor
  | noCapabilities
  | noSynchronousHost
  | noAsynchronousHost

/-- `name` of the thrown error. -/
def HostError.name : HostError → String
  | .notOwned _ _ => "EBADF"
  | .invalidDescriptor | .duplicateDescriptors | .reusedDescriptor => "EPROTO"
  | .noCapabilities => "EMFILE"
  | .noSynchronousHost | .noAsynchronousHost => "ENOSYS"

namespace JsValue

/-- `Number.isSafeInteger(value) && value >= 0` -/
def descriptor : JsValue → Option ℕ
  | .integer n => if 0 ≤ n ∧ n < 2 ^ 53 then some n.toNat else none
  | _ => none

def isNumber : JsValue → Bool
  | .integer _ | .double _ => true
  | _ => false

def isUndefined : JsValue → Bool
  | .undefined => true
  | _ => false

end JsValue

def fieldIs (fields : JsFields) (key text : String) : Bool :=
  match get fields key with
  | some (.string s) => s = text
  | _ => false

/-- The value of a field, `undefined` where there is none. -/
def field (fields : JsFields) (key : String) : JsValue := (get fields key).getD .undefined

/-- `RuntimeHostContext`. Of the handlers only their presence is kept. -/
structure HostContext where
  id : ℕ
  dispatchSync : Bool
  dispatchAsync : Bool
  hostStandardDescriptors : Bool
  descriptors : List (ℕ × ℕ)
  ownedDescriptors : List ℕ

/-- The options that a context takes from `VMOptions` or from the defaults of the router. -/
structure HostOptions where
  hostDispatchSync : Bool
  hostDispatchAsync : Bool
  hostStandardDescriptors : Option Bool

namespace HostContext

def resolve (c : HostContext) (value : JsValue) : Except HostError ℕ :=
  match value.descriptor.bind (get c.descriptors) with
  | some fd => .ok fd
  | none => .error (.notOwned value c.id)

/-- Replaces the token under `key`, if there is one, by its host descriptor. -/
def resolveField (c : HostContext) (key : String) (fields : JsFields) :
    Except HostError JsFields :=
  match get fields key with
  | none => .ok fields
  | some value => (c.resolve value).map fun (fd : ℕ) => set fields key (.integer fd)

def resolveItem (c : HostContext) (key : String) : JsValue → Except HostError JsValue
  | .object fields => (c.resolveField key fields).map .object
  | value => .ok value

def resolveItems (c : HostContext) (key : String) : List JsValue → Except HostError (List JsValue)
  | [] => .ok []
  | x :: xs => (c.resolveItem key x).bind fun y =>
      (resolveItems c key xs).map fun ys => y :: ys

def resolveList (c : HostContext) (list key : String) (fields : JsFields) :
    Except HostError JsFields :=
  match get fields list with
  | some (.array xs) => (c.resolveItems key xs).map fun ys => set fields list (.array ys)
  | _ => .ok fields

def translateDescriptorCapabilities (c : HostContext) (request : JsValue) :
    Except HostError JsValue :=
  match request with
  | .object fields =>
      match get fields "payload" with
      | some (.object payload) =>
          ((c.resolveField "fd" payload).bind fun payload =>
            (c.resolveList "entries" "fd" payload).bind fun payload =>
              c.resolveList "descriptorMappings" "parentFd" payload).map fun payload =>
                .object (set fields "payload" (.object payload))
      | _ => .ok request
  | _ => .ok request

end HostContext

/-- What has happened at the boundary, which no call reads. `sent` is a request that reached the
host, `granted` a descriptor that an answer gave to a context, `answered` an answer that has been
applied. -/
inductive RouterLog where
  | created (context : ℕ) (standard : Bool)
  | sent (request context : ℕ) (body : JsValue)
  | granted (context fd : ℕ)
  | answered (request : ℕ)

structure HostRequest where
  context : ℕ
  body : JsValue

/-- The router with the contexts ever created; `contexts` holds those that have not been released
and `runs` the values of `previous` of the calls of `run` in progress. -/
structure RouterVm where
  defaults : HostOptions
  objects : ℕ → Option HostContext
  contexts : List ℕ
  activeContext : Option ℕ
  runs : List (Option ℕ)
  nextContextId : ℕ
  nextDescriptorToken : ℕ
  requests : ℕ → Option HostRequest
  nextRequest : ℕ
  log : List RouterLog

namespace RouterVm

def start (defaults : HostOptions) : RouterVm where
  defaults := defaults
  objects _ := none
  contexts := []
  activeContext := none
  runs := []
  nextContextId := 1
  nextDescriptorToken := 3
  requests _ := none
  nextRequest := 0
  log := []

def modify (s : RouterVm) (c : ℕ) (f : HostContext → HostContext) : RouterVm :=
  { s with objects := Function.update s.objects c ((s.objects c).map f) }

def createContext (s : RouterVm) (o : HostOptions) : RouterVm :=
  let standard := o.hostStandardDescriptors.getD (s.defaults.hostStandardDescriptors = some true)
  let context : HostContext :=
    { id := s.nextContextId
      dispatchSync := o.hostDispatchSync || s.defaults.hostDispatchSync
      dispatchAsync := o.hostDispatchAsync || s.defaults.hostDispatchAsync
      hostStandardDescriptors := standard
      descriptors := if standard then [(0, 0), (1, 1), (2, 2)] else []
      ownedDescriptors := [] }
  { s with
    objects := Function.update s.objects s.nextContextId (some context)
    contexts := s.contexts ++ [s.nextContextId]
    nextContextId := s.nextContextId + 1
    log := .created s.nextContextId standard :: s.log }

/-- Hands a translated request to the host; `body` is kept for the answer. -/
def send (s : RouterVm) (c : ℕ) (translated : JsValue) (body : Option JsValue) : RouterVm :=
  { s with
    requests := Function.update s.requests s.nextRequest (body.map fun b => ⟨c, b⟩)
    nextRequest := s.nextRequest + 1
    log := .sent s.nextRequest c translated :: s.log }

/-- The request by which `releaseContext` closes a descriptor. -/
def closeRequest (fd : ℕ) : JsValue :=
  .object [("service", .string "posix"), ("operation", .string "close"),
    ("payload", .object [("fd", .integer fd)])]

/-- The loop of `releaseContext` over the owned tokens. -/
def closeOwned (c : ℕ) (descriptors : List (ℕ × ℕ)) : RouterVm → List ℕ → RouterVm
  | s, [] => s
  | s, token :: tokens =>
      match get descriptors token with
      | none => closeOwned c descriptors s tokens
      | some fd => closeOwned c descriptors (s.send c (closeRequest fd) none) tokens

def releaseContext (s : RouterVm) (c : ℕ) (context : HostContext) : RouterVm :=
  let s := if context.dispatchSync then
    closeOwned c context.descriptors s context.ownedDescriptors else s
  let s := s.modify c fun o => { o with descriptors := [], ownedDescriptors := [] }
  { s with
    contexts := s.contexts.filter fun d => d ≠ c
    activeContext := if s.activeContext = some c then none else s.activeContext }

def tokenUsed (s : RouterVm) (token : ℕ) : Bool :=
  s.contexts.any fun c => (s.objects c).any fun o => (get o.descriptors token).isSome

def nextToken (token : ℕ) : ℕ := if 0x3fffffff ≤ token then 3 else token + 1

/-- The loop of `allocateDescriptorToken`: the token and the next value of the counter. -/
def searchToken (s : RouterVm) (first : ℕ) : ℕ → ℕ → Option ℕ × ℕ
  | 0, token => (none, token)
  | fuel + 1, token =>
      if !s.tokenUsed token then (some token, nextToken token)
      else if nextToken token = first then (none, nextToken token)
      else searchToken s first fuel (nextToken token)

/-- `allocateDescriptorToken`; the loop goes round the tokens once. -/
def allocateDescriptorToken (s : RouterVm) : Option ℕ × RouterVm :=
  let r := searchToken s s.nextDescriptorToken 0x3ffffffd s.nextDescriptorToken
  (r.1, { s with nextDescriptorToken := r.2 })

def grant (s : RouterVm) (c token fd : ℕ) : RouterVm :=
  { s.modify c fun o => { o with
      descriptors := set o.descriptors token fd
      ownedDescriptors := if token ∈ o.ownedDescriptors then o.ownedDescriptors
        else o.ownedDescriptors ++ [token] } with
    log := .granted c fd :: s.log }

/-- The last part of `register`. -/
def registerRaw (c : ℕ) : RouterVm → List ℕ → Except HostError (List ℕ) × RouterVm
  | s, [] => (.ok [], s)
  | s, fd :: fds =>
      match s.allocateDescriptorToken with
      | (none, s) => (.error .noCapabilities, s)
      | (some token, s) =>
          let r := registerRaw c (s.grant c token fd) fds
          (r.1.map fun tokens => token :: tokens, r.2)

def rawDescriptors : List JsValue → Option (List ℕ)
  | [] => some []
  | v :: vs => v.descriptor.bind fun fd => (rawDescriptors vs).map fun fds => fd :: fds

def register (s : RouterVm) (c : ℕ) (context : HostContext) (values : List JsValue) :
    Except HostError (List ℕ) × RouterVm :=
  match rawDescriptors values with
  | none => (.error .invalidDescriptor, s)
  | some raw =>
      if ¬ raw.Nodup then (.error .duplicateDescriptors, s)
      else if raw.any fun fd => (context.descriptors.map Prod.snd).contains fd then
        (.error .reusedDescriptor, s)
      else registerRaw c s raw

/-- Registers the descriptors under the given keys and replaces them by their tokens. -/
def registerFields (s : RouterVm) (c : ℕ) (context : HostContext) (fields : JsFields)
    (keys : List String) : Except HostError JsFields × RouterVm :=
  let r := s.register c context (keys.map (field fields))
  (r.1.map fun tokens => (keys.zip tokens).foldl
    (fun fields p => set fields p.1 (.integer p.2)) fields, r.2)

def closeToken (fields : JsFields) : Option JsValue :=
  match get fields "payload" with
  | some (.object payload) =>
      (get payload "fd").bind fun v => if v.isNumber then some v else none
  | _ => none

def deleteToken (s : RouterVm) (c : ℕ) (token : Option ℕ) : RouterVm :=
  match token with
  | none => s
  | some token => s.modify c fun o => { o with
      descriptors := delete o.descriptors token
      ownedDescriptors := o.ownedDescriptors.filter fun t => t ≠ token }

/-- `applyDescriptorResponse` for a context that is there. -/
def applyDescriptorResponse (s : RouterVm) (c : ℕ) (context : HostContext)
    (request response : JsValue) : Except HostError JsValue × RouterVm :=
  match request with
  | .object fields =>
      if !fieldIs fields "service" "posix" then (.ok response, s)
      else if fieldIs fields "operation" "close" && (closeToken fields).isSome then
        (.ok response, s.deleteToken c ((closeToken fields).bind JsValue.descriptor))
      else
        match response with
        | .object result =>
            if ["open", "socket", "accept", "watch"].any (fieldIs fields "operation") then
              let r := s.registerFields c context result ["fd"]
              (r.1.map .object, r.2)
            else if fieldIs fields "operation" "pipe" then
              let r := s.registerFields c context result ["readFd", "writeFd"]
              (r.1.map .object, r.2)
            else if fieldIs fields "operation" "spawn" then
              match get result "stdio" with
              | some (.object stdio) =>
                  let keys := ["stdinFd", "stdoutFd", "stderrFd"].filter fun key =>
                    !(field stdio key).isUndefined
                  let r := s.registerFields c context stdio keys
                  (r.1.map fun stdio => .object (set result "stdio" (.object stdio)), r.2)
              | _ => (.ok response, s)
            else (.ok response, s)
        | _ => (.ok response, s)
  | _ => (.ok response, s)

/-- The common part of `dispatchSync` and `dispatchAsync`. -/
def dispatch (s : RouterVm) (c : ℕ) (context : HostContext) (request : JsValue) :
    Except HostError Unit × RouterVm :=
  match context.translateDescriptorCapabilities request with
  | .error e => (.error e, s)
  | .ok translated => (.ok (), s.send c translated (some request))

/-- `dispatchSync` up to the call of the host. -/
def dispatchSync (s : RouterVm) (request : JsValue) : Except HostError Unit × RouterVm :=
  match s.activeContext with
  | none => (.error .noSynchronousHost, s)
  | some c =>
      match s.objects c with
      | none => (.error .noSynchronousHost, s)
      | some context =>
          if context.dispatchSync then s.dispatch c context request
          else (.error .noSynchronousHost, s)

/-- The context of an asynchronous request, which a given identifier selects among the live ones. -/
def asyncTarget (s : RouterVm) : Option ℕ → Option ℕ
  | none => s.activeContext
  | some id => if id ∈ s.contexts then some id else none

/-- `dispatchAsync` up to the call of the host. -/
def dispatchAsync (s : RouterVm) (request : JsValue) (contextId : Option ℕ) :
    Except HostError Unit × RouterVm :=
  match s.asyncTarget contextId with
  | none => (.error .noAsynchronousHost, s)
  | some c =>
      match s.objects c with
      | none => (.error .noAsynchronousHost, s)
      | some context =>
          if context.dispatchAsync then s.dispatch c context request
          else (.error .noAsynchronousHost, s)

end RouterVm

inductive RouterCall where
  | createContext (o : HostOptions)
  | releaseContext (c : ℕ)
  | run (c : ℕ)
  | runEnds
  | dispatchSync (request : JsValue)
  | dispatchAsync (request : JsValue) (contextId : Option ℕ)
  | respond (i : ℕ) (response : JsValue)
  /-- The host throws, or its promise is rejected. -/
  | reject (i : ℕ)

def RouterVm.answer (s : RouterVm) (i : ℕ) : RouterVm :=
  { s with requests := Function.update s.requests i none, log := .answered i :: s.log }

def routerStep (s : RouterVm) : RouterCall → Option RouterVm
  | .createContext o => some (s.createContext o)
  | .releaseContext c => (s.objects c).map fun context => s.releaseContext c context
  | .run c => (s.objects c).map fun _ =>
      { s with activeContext := some c, runs := s.activeContext :: s.runs }
  | .runEnds =>
      match s.runs with
      | [] => none
      | previous :: runs => some { s with activeContext := previous, runs := runs }
  | .dispatchSync request => some (s.dispatchSync request).2
  | .dispatchAsync request contextId => some (s.dispatchAsync request contextId).2
  | .respond i response =>
      (s.requests i).bind fun r => (s.objects r.context).map fun context =>
        ((s.answer i).applyDescriptorResponse r.context context r.body response).2
  | .reject i => (s.requests i).map fun _ => { s with requests := Function.update s.requests i none }

end TraceJvm
