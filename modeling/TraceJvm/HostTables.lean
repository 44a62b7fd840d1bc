import TraceJvm.HostPoll
import TraceJvm.Lib.ArrayMap
import TraceJvm.Lib.SlotTable

/-! The tables of `tracejvm-host.c`: emulated epoll sets, event descriptors and inotify instances
with their watches, and the asynchronous calls to the host. All contexts share them. -/
namespace TraceJvm

open OrderedMap ArrayMap

/-! ### Numbers -/

def inotifyFdBase : ℤ := 0x20000000
def epollFdBase : ℤ := 0x30000000
def taggedFdBase : ℤ := 0x40000000
def inotifyInstanceLimit : ℕ := 64
def inotifyWatchLimit : ℕ := 1024
def epollInstanceLimit : ℕ := 64
def epollEntryLimit : ℕ := 1024
def eventfdLimit : ℕ := 64

/-- The error numbers of the emulation; `host` is one that the host has named. -/
inductive Errno where
  | EBADF | EINVAL | EEXIST | ENOENT | ENOSPC | ENOSYS | EMFILE | ENOMEM | EPROTO | EAGAIN
  | host (name : String)

structure HostEnv where
  /-- `traceJVMHostContextId` -/
  contextId : ℕ
  /-- The host is available, and descriptors 0 to 2 belong to it. -/
  standardDescriptors : Bool
  /-- `traceJVMHostDispatchAsync` is there. -/
  asynchronous : Bool
  /-- The answer of the host to closing one of its descriptors, or of the C library to closing
  another one. -/
  closeError : ℤ → Option String

/-- `tracejvm_host_context_js`, whose result is a `uint32_t`. -/
def HostEnv.context (env : HostEnv) : UInt32 :=
  UInt32.ofNat (if env.contextId < 2 ^ 53 then env.contextId else 0)

def isRemoteFd (fd : ℤ) : Bool := taggedFdBase ≤ fd ∧ fd ≤ 0x7fffffff

/-! ### Tables -/

structure EpollInstance where
  context : UInt32
  pendingCallId : ℕ
  entries : List (ℤ × Int32)

structure EventDescriptor where
  context : UInt32
  readFd : ℤ
  writeFd : ℤ
  remote : isRemoteFd readFd = true ∧ isRemoteFd writeFd = true

structure InotifyInstance where
  context : UInt32
  epollFd : ℤ
  wakeFd : ℤ
  pendingCallId : ℕ
  /-- The set of descriptors comes from `tracejvm_host_epoll_create`. -/
  inner : epollFdBase ≤ epollFd ∧ epollFd < epollFdBase + epollInstanceLimit

theorem inner_epollFdBase :
    epollFdBase ≤ epollFdBase ∧ epollFdBase < epollFdBase + epollInstanceLimit := by decide

structure InotifyWatch where
  owner : ℕ
  fd : ℤ
  mask : Int32
  ready : Bool
  path : List UInt8
  remote : isRemoteFd fd = true

structure AsyncCall where
  contextId : ℕ
  epollEntries : List PollEntry
  settled : Option (Except HostError JsValue)

inductive DescriptorEvent where
  | opened (fd : ℤ)
  | closed (fd : ℤ)

structure HostTables where
  epolls : List (Option EpollInstance)
  eventfds : List (Option EventDescriptor)
  inotifies : List (Option InotifyInstance)
  watches : List (Option InotifyWatch)
  calls : List (ℕ × AsyncCall)
  nextCallId : ℕ
  /-- The last event comes first. -/
  log : List DescriptorEvent

def HostTables.start : HostTables where
  epolls := List.replicate epollInstanceLimit none
  eventfds := List.replicate eventfdLimit none
  inotifies := List.replicate inotifyInstanceLimit none
  watches := List.replicate inotifyWatchLimit none
  calls := []
  nextCallId := 0
  log := []

/-! ### Descriptors -/

def HostEnv.routesFd (env : HostEnv) (fd : ℤ) : Bool :=
  isRemoteFd fd || (0 ≤ fd && fd ≤ 2 && env.standardDescriptors)

theorem isRemoteFd_tagged {fd : ℕ} (h : fd < 0x40000000) :
    isRemoteFd (taggedFdBase + fd) = true := by
  apply decide_eq_true
  unfold taggedFdBase
  omega

def remoteFd (taggedFd : ℤ) : ℤ := if isRemoteFd taggedFd then taggedFd - taggedFdBase else taggedFd

namespace HostTables

variable (t : HostTables)

/-- The place of the instance that a descriptor stands for in the active context. -/
def epollIndex (env : HostEnv) (fd : ℤ) : Option ℕ :=
  if epollFdBase ≤ fd ∧ fd < epollFdBase + epollInstanceLimit then
    match t.epolls[(fd - epollFdBase).toNat]? with
    | some (some e) => if e.context = env.context then some (fd - epollFdBase).toNat else none
    | _ => none
  else none

def inotifyIndex (env : HostEnv) (fd : ℤ) : Option ℕ :=
  if inotifyFdBase ≤ fd ∧ fd < inotifyFdBase + inotifyInstanceLimit then
    match t.inotifies[(fd - inotifyFdBase).toNat]? with
    | some (some i) => if i.context = env.context then some (fd - inotifyFdBase).toNat else none
    | _ => none
  else none

def eventfdIndex (env : HostEnv) (fd : ℤ) : Option ℕ :=
  t.eventfds.findIdx? fun x =>
    match x with
    | some e => e.context = env.context ∧ e.readFd = fd
    | none => false

/-- `inotify_watch` -/
def watchIndex (owner : ℕ) (wd : ℤ) : Option ℕ :=
  t.watches.findIdx? fun x =>
    match x with
    | some w => w.owner = owner ∧ w.fd = wd
    | none => false

def setEpoll (i : ℕ) (e : EpollInstance) : HostTables :=
  { t with epolls := t.epolls.set i (some e) }

def closeRemote (fd : ℤ) : HostTables := { t with log := .closed (remoteFd fd) :: t.log }

def openRemote (fd : ℤ) : HostTables := { t with log := .opened (remoteFd fd) :: t.log }

/-! ### epoll -/

def epollCreate (env : HostEnv) : HostTables × Except Errno ℤ :=
  match SlotTable.fill t.epolls ⟨env.context, 0, []⟩ with
  | none => (t, .error .EMFILE)
  | some (epolls, i) => ({ t with epolls }, .ok (epollFdBase + i))

/-- The entries after `epoll_ctl`. -/
def ctlEntries (entries : List (ℤ × Int32)) (operation fd : ℤ) (events : Int32) :
    Except Errno (List (ℤ × Int32)) :=
  match operation, ArrayMap.indexOf entries fd with
  | 1, some _ => .error .EEXIST
  | 1, none =>
    if epollEntryLimit ≤ entries.length then .error .ENOSPC else .ok (entries ++ [(fd, events)])
  | 2, none => .error .ENOENT
  | 2, some i => .ok (swapRemove entries i)
  | 3, none => .error .ENOENT
  | 3, some i => .ok (entries.set i (fd, events))
  | _, _ => .error .EINVAL

def epollCtl (env : HostEnv) (epfd operation fd : ℤ) (events : Int32) :
    HostTables × Except Errno Unit :=
  match t.epollIndex env epfd with
  | none => (t, .error .EBADF)
  | some i =>
    match t.epolls[i]?.join with
    | none => (t, .error .EBADF)
    | some e =>
      if env.routesFd fd then
        match ctlEntries e.entries operation fd events with
        | .error err => (t, .error err)
        | .ok entries => (t.setEpoll i { e with entries }, .ok ())
      else (t, .error .EBADF)

def pollEntry (e : ℤ × Int32) : Option PollEntry :=
  if h : taggedFdBase ≤ e.1 ∧ e.1 ≤ 0x7fffffff then
    some {
      token := (e.1 - taggedFdBase).toNat
      read := e.2 &&& 0x001 ≠ 0
      write := e.2 &&& 0x004 ≠ 0
      small := by
        unfold taggedFdBase at h ⊢
        omega }
  else none

def searchCallId (calls : List (ℕ × AsyncCall)) : ℕ → ℕ → Option ℕ
  | 0, _ => none
  | fuel + 1, id =>
    let next := if 0x7fffffff ≤ id then 1 else id + 1
    if (get calls next).isSome then searchCallId calls fuel next else some next

def beginCall (env : HostEnv) (polled : List PollEntry) : HostTables × Except Errno ℕ :=
  match searchCallId t.calls (t.calls.length + 1) t.nextCallId with
  | none => (t, .error .EAGAIN)
  | some id =>
    ({ t with
        nextCallId := id
        calls := set t.calls id ⟨env.contextId, polled, none⟩ }, .ok id)

/-- `tracejvm_host_epoll_wait_begin_js` -/
def waitBeginJs (env : HostEnv) (entries : List (ℤ × Int32)) : HostTables × Except Errno ℕ :=
  if env.asynchronous then
    match entries.mapM pollEntry with
    | none => (t, .error .EBADF)
    | some polled => t.beginCall env polled
  else (t, .error .ENOSYS)

/-- `tracejvm_host_async_begin_js`: the calls that wait, read or accept. -/
def asyncBegin (env : HostEnv) : HostTables × Except Errno ℕ :=
  if env.asynchronous then t.beginCall env [] else (t, .error .ENOSYS)

def epollWaitBegin (env : HostEnv) (epfd : ℤ) : HostTables × Except Errno ℕ :=
  match t.epollIndex env epfd with
  | none => (t, .error .EBADF)
  | some i =>
    match t.epolls[i]?.join with
    | none => (t, .error .EBADF)
    | some e =>
      if 0 < e.pendingCallId then (t, .ok e.pendingCallId)
      else
        match t.waitBeginJs env e.entries with
        | (t', .error err) => (t', .error err)
        | (t', .ok id) => (t'.setEpoll i { e with pendingCallId := id }, .ok id)

/-- The answer of a call that has settled; its number is free again, also in the set that waits. -/
def endCall (callId : ℕ) : HostTables :=
  { t with
    calls := delete t.calls callId
    epolls :=
      match t.epolls.findIdx? fun x => x.any fun e => e.pendingCallId = callId with
      | none => t.epolls
      | some i => t.epolls.modify i (Option.map fun e => { e with pendingCallId := 0 }) }

def asyncPoll (callId : ℕ) : HostTables :=
  match get t.calls callId with
  | some ⟨_, _, some _⟩ => { t with calls := delete t.calls callId }
  | _ => t

def settle (callId : ℕ) (outcome : Except HostError JsValue) : HostTables :=
  match get t.calls callId with
  | some ⟨contextId, polled, none⟩ =>
    { t with calls := set t.calls callId ⟨contextId, polled, some outcome⟩ }
  | _ => t

/-- `tracejvm_host_epoll_wait_poll`; the events come with their descriptors, and `none` stands for
a call that is pending. -/
def epollWaitPoll (callId capacity : ℕ) : HostTables × Option (Except Errno (List (ℕ × ℕ))) :=
  match get t.calls callId with
  | none => (t.endCall callId, some (.error .EINVAL))
  | some call =>
    match call.settled with
    | none => (t, none)
    | some outcome =>
      match outcome, TraceJvm.epollWaitPoll call.epollEntries capacity outcome with
      | .error error, _ => (t.endCall callId, some (.error (.host error.name)))
      | .ok _, none => (t.endCall callId, some (.error .EPROTO))
      | .ok _, some events => (t.endCall callId, some (.ok events))

/-! ### Descriptors of events, and closing -/

/-- `tracejvm_host_eventfd` with the answer of the host. -/
def eventfd (env : HostEnv) (pipe : Option (ℕ × ℕ)) : HostTables × Except Errno ℤ :=
  match pipe with
  | none => (t, .error (.host "pipe"))
  | some (readFd, writeFd) =>
    if h : readFd < 0x40000000 ∧ writeFd < 0x40000000 then
      let t' := (t.openRemote (taggedFdBase + readFd)).openRemote (taggedFdBase + writeFd)
      match SlotTable.fill t.eventfds ⟨env.context, taggedFdBase + readFd, taggedFdBase + writeFd,
        isRemoteFd_tagged h.1, isRemoteFd_tagged h.2⟩ with
      | none =>
        ((t'.closeRemote (taggedFdBase + readFd)).closeRemote (taggedFdBase + writeFd),
          .error .EMFILE)
      | some (eventfds, _) => ({ t' with eventfds }, .ok (taggedFdBase + readFd))
    else (t, .error .EPROTO)

/-- `tracejvm_host_close` of a descriptor that is no inotify instance. -/
def closePlain (env : HostEnv) (fd : ℤ) : HostTables × Option Errno :=
  match t.epollIndex env fd with
  | some i => ({ t with epolls := t.epolls.set i none }, none)
  | none =>
    match t.eventfdIndex env fd with
    | some i =>
      match t.eventfds[i]?.join with
      | none => (t, none)
      | some e =>
        let t' := (t.closeRemote e.readFd).closeRemote e.writeFd
        ({ t' with eventfds := t.eventfds.set i none },
          ((env.closeError (remoteFd e.readFd)).or (env.closeError (remoteFd e.writeFd))).map
            .host)
    | none =>
      if env.routesFd fd then (t.closeRemote fd, (env.closeError (remoteFd fd)).map .host)
      else (t, (env.closeError fd).map .host)

def ownedWatches (owner : ℕ) : List InotifyWatch :=
  t.watches.filterMap fun x => x.bind fun w => if w.owner = owner then some w else none

def closeWatches (owner : ℕ) : HostTables :=
  { t with
    watches := t.watches.map (Option.filter fun w => w.owner ≠ owner)
    log := (t.ownedWatches owner).reverse.map (fun w => .closed (remoteFd w.fd)) ++ t.log }

/-- `tracejvm_host_close`. The descriptor of the inner set is none of an inotify instance, so that
the call for it does not come back here. -/
def close (env : HostEnv) (fd : ℤ) : HostTables × Option Errno :=
  match t.inotifyIndex env fd with
  | none => t.closePlain env fd
  | some owner =>
    match t.inotifies[owner]?.join with
    | none => (t, none)
    | some instance_ =>
      let watchError := (t.ownedWatches owner).findSome? fun w => env.closeError (remoteFd w.fd)
      let (t', innerError) := (t.closeWatches owner).closePlain env instance_.epollFd
      ({ t' with inotifies := t'.inotifies.set owner none },
        (watchError.map .host).or innerError)

/-! ### inotify -/

def inotifyInit (env : HostEnv) : HostTables × Except Errno ℤ :=
  match SlotTable.fill t.epolls ⟨env.context, 0, []⟩ with
  | none => (t, .error .EMFILE)
  | some (epolls, i) =>
    if h : i < epollInstanceLimit then
      match SlotTable.fill t.inotifies ⟨env.context, epollFdBase + i, -1, 0,
        by unfold epollInstanceLimit at h ⊢; omega⟩ with
      | none =>
        ((({ t with epolls } : HostTables).closePlain env (epollFdBase + i)).1, .error .EMFILE)
      | some (inotifies, j) => ({ t with epolls, inotifies }, .ok (inotifyFdBase + j))
    else (t, .error .EMFILE)

/-- What the host and the C library give a new watch: the path in full, memory for it, and the
descriptor of the watch. -/
structure WatchAnswers where
  realpath : List UInt8 → Option (List UInt8)
  strdup : Bool
  watch : Option ℕ

def inotifyAddWatch (env : HostEnv) (ifd : ℤ) (path : Option (List UInt8)) (mask : Int32)
    (a : WatchAnswers) : HostTables × Except Errno ℤ :=
  match t.inotifyIndex env ifd, path with
  | none, _ => (t, .error .EBADF)
  | _, none => (t, .error .EINVAL)
  | some owner, some path =>
    match t.inotifies[owner]?.join, a.realpath path with
    | none, _ => (t, .error .EBADF)
    | _, none => (t, .error (.host "realpath"))
    | some i, some resolved =>
      match t.watches.findIdx? fun x => x.any fun w => w.owner = owner ∧ w.path = resolved with
      | some k =>
        ({ t with watches := t.watches.modify k (Option.map fun w => { w with mask }) },
          match t.watches[k]?.join with
          | some w => .ok w.fd
          | none => .error .EBADF)
      | none =>
        match t.watches.findIdx? Option.isNone with
        | none => (t, .error .ENOSPC)
        | some slot =>
          match a.strdup, a.watch with
          | false, _ => (t, .error .ENOMEM)
          | true, none => (t, .error (.host "watch"))
          | true, some fd =>
            if h : fd < 0x40000000 then
              match (t.openRemote (taggedFdBase + fd)).epollCtl env i.epollFd 1
                (taggedFdBase + fd) 0x001 with
              | (t', .error err) => (t'.closeRemote (taggedFdBase + fd), .error err)
              | (t', .ok _) =>
                let watch :=
                  ⟨owner, taggedFdBase + fd, mask, false, resolved, isRemoteFd_tagged h⟩
                ({ t' with watches := t'.watches.set slot (some watch) }, .ok (taggedFdBase + fd))
            else (t, .error .EPROTO)

def inotifyRmWatch (env : HostEnv) (ifd wd : ℤ) : HostTables × Except Errno Unit :=
  match t.inotifyIndex env ifd with
  | none => (t, .error .EBADF)
  | some owner =>
    match t.inotifies[owner]?.join, t.watchIndex owner wd with
    | none, _ => (t, .error .EBADF)
    | _, none => (t, .error .EINVAL)
    | some i, some k =>
      let (t', removed) := t.epollCtl env i.epollFd 2 wd 0
      let t'' := t'.closeRemote wd
      ({ t'' with watches := t''.watches.set k none },
        match removed, env.closeError (remoteFd wd) with
        | .error err, _ => .error err
        | .ok _, some name => .error (.host name)
        | .ok _, none => .ok ())

def setInotify (k : ℕ) (i : InotifyInstance) : HostTables :=
  { t with inotifies := t.inotifies.set k (some i) }

/-- The part of `tracejvm_host_inotify_poll_begin` that changes the descriptor for waking up. -/
def setWakeFd (env : HostEnv) (k : ℕ) (i : InotifyInstance) (wakeFd : ℤ) :
    HostTables × Except Errno InotifyInstance :=
  if i.wakeFd = wakeFd then (t, .ok i)
  else
    let (t', removed) :=
      if 0 ≤ i.wakeFd then t.epollCtl env i.epollFd 2 i.wakeFd 0 else (t, .ok ())
    match removed with
    | .error .ENOENT | .ok _ =>
      match t'.epollCtl env i.epollFd 1 wakeFd 0x001 with
      | (t'', .error err) => (t'', .error err)
      | (t'', .ok _) => (t''.setInotify k { i with wakeFd }, .ok { i with wakeFd })
    | .error err => (t', .error err)

def inotifyPollBegin (env : HostEnv) (ifd wakeFd : ℤ) : HostTables × Except Errno ℕ :=
  match t.inotifyIndex env ifd with
  | none => (t, .error .EBADF)
  | some k =>
    match t.inotifies[k]?.join with
    | none => (t, .error .EBADF)
    | some i =>
      if env.routesFd wakeFd then
        if 0 < i.pendingCallId then (t, .ok i.pendingCallId)
        else
          match t.setWakeFd env k i wakeFd with
          | (t', .error err) => (t', .error err)
          | (t', .ok i) =>
            match t'.epollWaitBegin env i.epollFd with
            | (t'', .error err) => (t'', .error err)
            | (t'', .ok callId) => (t''.setInotify k { i with pendingCallId := callId }, .ok callId)
      else (t, .error .EBADF)

def markReady (owner : ℕ) (wakeFd : ℤ) :
    List (ℕ × ℕ) → HostTables → ℕ → HostTables × Except Errno ℕ
  | [], t, result => (t, .ok result)
  | (_, fd) :: events, t, result =>
    if fd = wakeFd then markReady owner wakeFd events t (result ||| 2)
    else
      match t.watchIndex owner fd with
      | none => (t, .error .EPROTO)
      | some k =>
        markReady owner wakeFd events
          { t with watches := t.watches.modify k (Option.map fun w => { w with ready := true }) }
          (result ||| 1)

/-- `tracejvm_host_inotify_poll_poll`; `none` stands for a call that is pending. -/
def inotifyPollPoll (callId : ℕ) : HostTables × Option (Except Errno ℕ) :=
  match t.inotifies.findIdx? fun x => x.any fun i => i.pendingCallId = callId with
  | none => (t, some (.error .EINVAL))
  | some owner =>
    match t.inotifies[owner]?.join with
    | none => (t, some (.error .EINVAL))
    | some i =>
      match t.epollWaitPoll callId (inotifyWatchLimit + 1) with
      | (t', none) => (t', none)
      | (t', some (.error err)) =>
        (t'.setInotify owner { i with pendingCallId := 0 }, some (.error err))
      | (t', some (.ok events)) =>
        let (t'', result) := markReady owner i.wakeFd events
          (t'.setInotify owner { i with pendingCallId := 0 }) 0
        (t'', some result)

/-! ### Disposal -/

/-- `tracejvm_host_cancel_context_calls_js`, where the number arrives as a signed one. -/
def cancelContextCalls (context : UInt32) : HostTables :=
  { t with calls := t.calls.filter fun c => (c.2.contextId : ℤ) ≠ context.toInt32.toInt }

def disposeInotify (env : HostEnv) (index : ℕ) : HostTables :=
  match t.inotifies[index]?.join with
  | some i => if i.context = env.context then (t.close env (inotifyFdBase + index)).1 else t
  | none => t

def disposeEventfd (env : HostEnv) (index : ℕ) : HostTables :=
  match t.eventfds[index]?.join with
  | some e => if e.context = env.context then (t.close env e.readFd).1 else t
  | none => t

/-- `tracejvm_host_dispose_active_context` -/
def disposeActiveContext (env : HostEnv) : HostTables :=
  if env.context = 0 then t
  else
    let t := (List.range inotifyInstanceLimit).foldl (fun t i => t.disposeInotify env i) t
    let t := (List.range eventfdLimit).foldl (fun t i => t.disposeEventfd env i) t
    let t := { t with epolls := t.epolls.map (Option.filter fun e => e.context ≠ env.context) }
    t.cancelContextCalls env.context

end HostTables

end TraceJvm
