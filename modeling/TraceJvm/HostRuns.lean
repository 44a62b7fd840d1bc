import TraceJvm.WatchFrames

/-! Runs over the tables of `tracejvm-host.c`: any contexts call its functions in any order, the
host opens descriptors, and its answers arrive. -/
namespace TraceJvm

open OrderedMap ArrayMap Transition

inductive HostOp where
  /-- The host opens a descriptor for the program. -/
  | opened (fd : ℤ)
  | close (fd : ℤ)
  | epollCreate
  | epollCtl (epfd operation fd : ℤ) (events : Int32)
  | epollWaitBegin (epfd : ℤ)
  | epollWaitPoll (callId capacity : ℕ)
  | asyncBegin
  | asyncPoll (callId : ℕ)
  | settle (callId : ℕ) (outcome : Except HostError JsValue)
  | eventfd (pipe : Option (ℕ × ℕ))
  | inotifyInit
  | inotifyAddWatch (ifd : ℤ) (path : Option (List UInt8)) (mask : Int32)
    (answers : HostTables.WatchAnswers)
  | inotifyRmWatch (ifd wd : ℤ)
  | inotifyPollBegin (ifd wakeFd : ℤ)
  | inotifyPollPoll (callId : ℕ)
  | inotifyRead (ifd : ℤ) (buffer : Bool) (length : ℕ) (answers : FrameAnswers)
  | disposeActiveContext

def HostTables.after (t : HostTables) (env : HostEnv) : HostOp → HostTables
  | .opened fd => t.openRemote fd
  | .close fd => (t.close env fd).1
  | .epollCreate => (t.epollCreate env).1
  | .epollCtl epfd operation fd events => (t.epollCtl env epfd operation fd events).1
  | .epollWaitBegin epfd => (t.epollWaitBegin env epfd).1
  | .epollWaitPoll callId capacity => (t.epollWaitPoll callId capacity).1
  | .asyncBegin => (t.asyncBegin env).1
  | .asyncPoll callId => t.asyncPoll callId
  | .settle callId outcome => t.settle callId outcome
  | .eventfd pipe => (t.eventfd env pipe).1
  | .inotifyInit => (t.inotifyInit env).1
  | .inotifyAddWatch ifd path mask answers => (t.inotifyAddWatch env ifd path mask answers).1
  | .inotifyRmWatch ifd wd => (t.inotifyRmWatch env ifd wd).1
  | .inotifyPollBegin ifd wakeFd => (t.inotifyPollBegin env ifd wakeFd).1
  | .inotifyPollPoll callId => (t.inotifyPollPoll callId).1
  | .inotifyRead ifd buffer length answers =>
    match t.inotifyIndex env ifd with
    | none => t
    | some owner => (t.inotifyRead owner buffer length answers).1
  | .disposeActiveContext => t.disposeActiveContext env

def hostStep (t : HostTables) (s : HostEnv × HostOp) : Option HostTables := some (t.after s.1 s.2)

end TraceJvm
