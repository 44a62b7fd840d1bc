import TraceJvm.HostTables
import TraceJvm.JarIndex

/-! `tracejvm_host_inotify_read`: the frames in which the host reports what has happened to a
watched path, and the records that a read of an inotify instance returns for them. -/
namespace TraceJvm

open ByteAccess

def watchFrameHeaderSize : ℕ := 9
def watchPathLimit : ℕ := 16 * 1024

/-- `tracejvm_watch_frame`: the type of a frame, and its path as a C string. -/
def watchFrame (frame : List UInt8) (pathCapacity : ℕ) : Option (ℕ × List UInt8) :=
  if frame.length < watchFrameHeaderSize ∨ frame.take 4 ≠ [0x54, 0x4b, 0x57, 0x31] then none
  else
    let pathLength := ByteAccess.field frame 5 4
    let type := ByteAccess.field frame 4 1
    if watchPathLimit < pathLength ∨ frame.length ≠ watchFrameHeaderSize + pathLength ∨
        pathCapacity < pathLength + 1 ∨ type < 1 ∨ 5 < type then none
    else some (type, cString (slice frame watchFrameHeaderSize pathLength))

/-! ### Records -/

def inModify : UInt32 := 0x00000002
def inCreate : UInt32 := 0x00000100
def inDelete : UInt32 := 0x00000200
def inQOverflow : UInt32 := 0x00004000
def inIgnored : UInt32 := 0x00008000

structure InotifyRecord where
  wd : ℤ
  mask : UInt32
  /-- Empty where there is no name. -/
  name : List UInt8

def word (n : ℕ) : List UInt8 :=
  [UInt8.ofNat n, UInt8.ofNat (n / 2 ^ 8), UInt8.ofNat (n / 2 ^ 16), UInt8.ofNat (n / 2 ^ 24)]

namespace InotifyRecord

variable (r : InotifyRecord)

def paddedNameLength : ℕ := if r.name.length = 0 then 0 else (r.name.length + 1 + 3) / 4 * 4

def size : ℕ := 16 + r.paddedNameLength

def bytes : List UInt8 :=
  word (r.wd % 2 ^ 32).toNat ++ word r.mask.toNat ++ word 0 ++ word r.paddedNameLength ++
    (r.name ++ List.replicate (r.paddedNameLength - r.name.length) 0)

/-- `tracejvm_inotify_record`, with the bytes that it writes. -/
def place (capacity : ℕ) : Option (List UInt8) := if capacity < r.size then none else some r.bytes

end InotifyRecord

def overflowRecord : InotifyRecord := ⟨-1, inQOverflow, []⟩

def lastSegment (path : List UInt8) : List UInt8 := (path.reverse.takeWhile (· ≠ 47)).reverse

/-- The record of a frame about another path than the watched one. -/
def childEvent (w : InotifyWatch) (stat : Option Errno) (type : ℕ) (path : List UInt8) :
    InotifyRecord :=
  if type = 1 then ⟨w.fd, inModify, lastSegment path⟩
  else if type = 4 then ⟨w.fd, inCreate, lastSegment path⟩
  else if type = 5 then ⟨w.fd, inDelete, lastSegment path⟩
  else
    match stat with
    | none => ⟨w.fd, inCreate, lastSegment path⟩
    | some .ENOENT => ⟨w.fd, inDelete, lastSegment path⟩
    | some _ => overflowRecord

/-- The record of a frame, or none if the frame is passed over. A failed `stat` has an error. -/
def watchEvent (w : InotifyWatch) (stat : Option Errno) (type : ℕ) (path : List UInt8) :
    Option InotifyRecord :=
  if type = 3 then some overflowRecord
  else if path = w.path then
    if type = 5 then some ⟨w.fd, inIgnored, []⟩
    else if type ≠ 2 then none
    else
      match stat with
      | none => none
      | some .ENOENT => some ⟨w.fd, inIgnored, []⟩
      | some _ => some overflowRecord
  else
    let r := childEvent w stat type path
    if 0 ≤ r.wd ∧ w.mask &&& r.mask.toInt32 = 0 then none else some r

/-! ### Reading -/

/-- What the host answers in a call of `tracejvm_host_inotify_read`, by the place of the watch in
the table: to the read of its descriptor, and to the `stat` of the path in the frame. -/
structure FrameAnswers where
  read : ℕ → Except String (List UInt8)
  stat : ℕ → Option Errno

/-- The frame that a read of the watch has taken from the host, if it has a type and a path. -/
def FrameAnswers.frame (a : FrameAnswers) (index : ℕ) : Option (ℕ × List UInt8) :=
  match a.read index with
  | .error _ => none
  | .ok bytes =>
    watchFrame (bytes.take (watchFrameHeaderSize + watchPathLimit)) (watchPathLimit + 1)

structure InotifyOutcome where
  /-- The watches of which the descriptor has been read, in this order. -/
  slots : List ℕ
  result : Except Errno (List UInt8)

def returned (output : List UInt8) (err : Errno) : Except Errno (List UInt8) :=
  if output = [] then .error err else .ok output

def readWatches (a : FrameAnswers) (owner length : ℕ) :
    List (Option InotifyWatch × ℕ) → List UInt8 → InotifyOutcome
  | [], output => ⟨[], returned output .EAGAIN⟩
  | (none, _) :: rest, output => readWatches a owner length rest output
  | (some w, index) :: rest, output =>
    if w.owner = owner ∧ w.ready = true then
      let o : InotifyOutcome :=
        match a.read index, a.frame index with
        | .error name, _ => ⟨[], returned output (.host name)⟩
        | .ok _, none => ⟨[], returned output .EPROTO⟩
        | .ok _, some (type, path) =>
          match watchEvent w (a.stat index) type path with
          | none => readWatches a owner length rest output
          | some r =>
            match r.place (length - output.length), overflowRecord.place length with
            | some bytes, _ => readWatches a owner length rest (output ++ bytes)
            | none, lost =>
              if output ≠ [] then ⟨[], .ok output⟩
              else
                match lost with
                | some bytes => readWatches a owner length rest bytes
                | none => ⟨[], .error .EINVAL⟩
      { o with slots := index :: o.slots }
    else readWatches a owner length rest output

/-- `tracejvm_host_inotify_read` -/
def HostTables.inotifyRead (t : HostTables) (owner : ℕ) (buffer : Bool) (length : ℕ)
    (a : FrameAnswers) : HostTables × InotifyOutcome :=
  if !buffer && 0 < length then (t, ⟨[], .error .EINVAL⟩)
  else
    let o := readWatches a owner length t.watches.zipIdx []
    ({ t with
        watches := t.watches.mapIdx fun index x =>
          if index ∈ o.slots then x.map fun w => { w with ready := false } else x }, o)

end TraceJvm
