import TraceJvm.Lib.FileTree
import Mathlib.Algebra.Order.Ring.Int
import TraceJvm.Lib.Transition

/-! The files of a run: the inputs that `runPromise` installs, and the cleanup after the program.
A path is the list of its segments, as `path.split("/")` gives it. -/
namespace TraceJvm

open FileTree (isDirectory)
open Transition

abbrev FsPath := List String

abbrev FsTree := FileTree String (List UInt8)

structure BinaryFile where
  path : FsPath
  content : List UInt8

/-! ### Path validation -/

def oddSegment (segment : String) : Bool := segment.toList.any fun c => c = '\\' || c = '\x00'

def badSegment (segment : String) : Bool := segment = "" || segment = "." || segment = ".."

def pathLength (path : FsPath) : ℕ := (path.map String.length).sum + (path.length - 1)

/-- `validateRelativePath` does not throw. -/
def relativePathValid (path : FsPath) : Bool :=
  !(pathLength path = 0 || path.head? = some "" || path.any oddSegment || path.any badSegment)

/-- `validateProcessFilePath` does not throw. -/
def processFilePathValid (path : FsPath) : Bool :=
  !(pathLength path ≤ 1 || !(path.head? = some "" && 2 ≤ path.length) || path.any oddSegment) &&
    !path.tail.any badSegment &&
    !(path.tail.head? = some "tracejvm" || path.tail.head? = some "tracekernel-api")

/-- `path.split("/").filter(Boolean)` -/
def processSegments (path : FsPath) : FsPath := path.filter (· ≠ "")

/-! ### File operations -/

inductive WriteOutcome where
  | done
  /-- The file cannot be opened. -/
  | refused
  /-- The file has been opened, and is left with other content. -/
  | torn (content : List UInt8)

/-- What the host does in the operations of one step, beyond what the tree itself forbids. -/
structure Host where
  refusesMkdir : FsPath → Bool
  refusesRead : Bool
  refusesUnlink : Bool
  write : WriteOutcome

def Host.willing : Host := ⟨fun _ => false, false, false, .done⟩

namespace FsTree

/-- `mkdir`: an error is ignored. -/
def mkdir (h : Host) (fs : FsTree) (p : FsPath) : FsTree :=
  if h.refusesMkdir p || !isDirectory (fs.get p.dropLast) || (fs.get p).isSome then fs
  else fs.put p (some (.directory []))

/-- The directories of a path below `base`, one after another. -/
def makeDirectories (h : Host) (fs : FsTree) (base : FsPath) : FsPath → FsTree
  | [] => fs
  | segment :: rest => makeDirectories h (mkdir h fs (base ++ [segment])) (base ++ [segment]) rest

/-- `fs.writeFile`; `false` if it throws. -/
def writeFile (h : Host) (fs : FsTree) (p : FsPath) (content : List UInt8) : Bool × FsTree :=
  if !isDirectory (fs.get p.dropLast) || isDirectory (fs.get p) then (false, fs)
  else
    match h.write with
    | .done => (true, fs.put p (some (.file content)))
    | .refused => (false, fs)
    | .torn rest => (false, fs.put p (some (.file rest)))

/-- `fs.unlink`; `false` if it throws. -/
def unlink (h : Host) (fs : FsTree) (p : FsPath) : Bool × FsTree :=
  match fs.contentAt p with
  | none => (false, fs)
  | some _ => if h.refusesUnlink then (false, fs) else (true, fs.put p none)

def writeBinaryFileTree (h : Host) (fs : FsTree) (root : FsPath) (file : BinaryFile) :
    Bool × FsTree :=
  writeFile h (makeDirectories h fs root file.path.dropLast) (root ++ file.path) file.content

mutual

/-- What `removeTreeNoFollow` leaves of the node at its path: a file is unlinked, and a directory
is removed if nothing is left of its entries. -/
def leftover : FsTree → Option FsTree
  | .file _ => none
  | .directory entries =>
    match leftovers entries with
    | [] => none
    | rest => some (.directory rest)

def leftovers : List (String × FsTree) → List (String × FsTree)
  | [] => []
  | (name, child) :: entries =>
    match leftover child with
    | none => leftovers entries
    | some left => (name, left) :: leftovers entries

end

def removeTreeNoFollow (fs : FsTree) (p : FsPath) : FsTree :=
  match fs.get p with
  | none => fs
  | some node => fs.put p (leftover node)

end FsTree

/-! ### The process files -/

structure InstalledProcessFile where
  path : FsPath
  priorContent : Option (List UInt8)

inductive InstallFault where
  | invalidPath (label : String) (path : FsPath)
  | reservedApi (path : FsPath)
  | notClassFile (path : FsPath)
  | invalidProcessPath (path : FsPath)
  /-- An operation of the file system throws. -/
  | filesystem

namespace FsTree

/-- The body of the loop of `installProcessFiles`. -/
def installProcessFile (h : Host) (fs : FsTree) (file : BinaryFile) :
    Except InstallFault InstalledProcessFile × FsTree :=
  if !processFilePathValid file.path then (.error (.invalidProcessPath file.path), fs)
  else
    let path := processSegments file.path
    let made := makeDirectories h fs [] path.dropLast
    if h.refusesRead || !isDirectory (made.get path.dropLast) then (.error .filesystem, made)
    else
      match made.get path with
      | some (.directory _) => (.error .filesystem, made)
      | some (.file prior) =>
        let (unlinked, fs₁) := unlink h made path
        if !unlinked then (.error .filesystem, fs₁)
        else
          let (written, fs₂) := writeFile h fs₁ path file.content
          (if written then .ok ⟨path, some prior⟩ else .error .filesystem, fs₂)
      | none =>
        let (written, fs₁) := writeFile h made path file.content
        (if written then .ok ⟨path, none⟩ else .error .filesystem, fs₁)

/-- The body of the loop of `restoreProcessFiles`. Errors are ignored. -/
def restoreProcessFile (fs : FsTree) (file : InstalledProcessFile) : FsTree :=
  let fs₁ := (unlink .willing fs file.path).2
  match file.priorContent with
  | none => fs₁
  | some content => (writeFile .willing fs₁ file.path content).2

def restoreProcessFiles (fs : FsTree) (installed : List InstalledProcessFile) : FsTree :=
  installed.reverse.foldl restoreProcessFile fs

end FsTree

/-! ### The run -/

structure RunRequest where
  files : List BinaryFile
  classpath : List BinaryFile
  processFiles : List BinaryFile

structure FilesRun where
  engine : ℕ
  sequence : ℕ
  request : RunRequest

namespace FilesRun

variable (r : FilesRun)

def scratchRoot : FsPath := ["tracejvm", "runtime-" ++ toString r.engine]

def outputRoot : FsPath := r.scratchRoot ++ ["run-classes-" ++ toString r.sequence]

def classpathRoot : FsPath := r.scratchRoot ++ ["run-classpath-" ++ toString r.sequence]

end FilesRun

/-- The names of `TRACEKERNEL_API_RUNTIME_FILES`, all in one directory. -/
def apiRuntimeFiles : List String :=
  ["TraceKernel.class", "TraceKernel$ProcessIdentity.class", "TraceKernel$SessionIdentity.class",
    "TraceKernel$TerminalWindowSize.class", "TraceKernel$WatchdogSignal.class",
    "TraceKernel$WatchdogStatus.class"]

def apiSegments : FsPath := ["io", "tracecode", "tracekernel"]

inductive FilesPc where
  | outputRoot
  | program (files : List BinaryFile)
  | classpathRoot
  | api (names : List String)
  | classpath (files : List BinaryFile)
  | process (files : List BinaryFile)
  /-- The inputs are installed, and the program runs. -/
  | java
  | ended (fault : Option InstallFault)

structure FilesVm where
  fs : FsTree
  pc : FilesPc
  installed : List InstalledProcessFile

inductive FilesEvent where
  /-- The next step of the installation. -/
  | install (h : Host)
  /-- The program changes files other than the process files. -/
  | program (fs : FsTree)
  /-- The program has ended in whatever way. -/
  | finish

namespace FilesVm

/-- The exception leaves `runPromise`. -/
def fail (s : FilesVm) (fs : FsTree) (fault : InstallFault) : FilesVm :=
  { s with fs := fs, pc := .ended (some fault) }

def installProgram (s : FilesVm) (r : FilesRun) (h : Host) (file : BinaryFile)
    (rest : List BinaryFile) : FilesVm :=
  if !relativePathValid file.path then s.fail s.fs (.invalidPath "Java class artifact" file.path)
  else
    let (written, fs) := FsTree.writeBinaryFileTree h s.fs r.outputRoot file
    if written then { s with fs := fs, pc := .program rest } else s.fail fs .filesystem

def installApi (s : FilesVm) (r : FilesRun) (h : Host) (name : String) (rest : List String) :
    FilesVm :=
  match s.fs.contentAt ("tracekernel-api" :: apiSegments ++ [name]) with
  | none => s.fail s.fs .filesystem
  | some content =>
    if h.refusesRead then s.fail s.fs .filesystem
    else
      let (written, fs) :=
        FsTree.writeFile h s.fs (r.classpathRoot ++ apiSegments ++ [name]) content
      if written then { s with fs := fs, pc := .api rest } else s.fail fs .filesystem

def hasSuffix (path : FsPath) (suffix : String) : Bool := (path.getLast?.getD "").endsWith suffix

def installClasspath (s : FilesVm) (r : FilesRun) (h : Host) (file : BinaryFile)
    (rest : List BinaryFile) : FilesVm :=
  if !relativePathValid file.path then s.fail s.fs (.invalidPath "Java classpath" file.path)
  else if apiSegments <+: file.path ∧ apiSegments.length < file.path.length then
    s.fail s.fs (.reservedApi file.path)
  else
    let (written, fs) := FsTree.writeBinaryFileTree h s.fs r.classpathRoot file
    if !written then s.fail fs .filesystem
    else if hasSuffix file.path ".jar" || hasSuffix file.path ".class" then
      { s with fs := fs, pc := .classpath rest }
    else s.fail fs (.notClassFile file.path)

def installProcess (s : FilesVm) (h : Host) (file : BinaryFile) (rest : List BinaryFile) :
    FilesVm :=
  match FsTree.installProcessFile h s.fs file with
  | (.ok done, fs) => { fs := fs, pc := .process rest, installed := s.installed ++ [done] }
  | (.error fault, fs) => s.fail (FsTree.restoreProcessFiles fs s.installed) fault

/-- The inner `finally` of `runPromise`. -/
def cleanup (s : FilesVm) (r : FilesRun) : FsTree :=
  FsTree.restoreProcessFiles
    (FsTree.removeTreeNoFollow (FsTree.removeTreeNoFollow s.fs r.outputRoot) r.classpathRoot)
    s.installed

end FilesVm

def FilesRun.processPaths (r : FilesRun) : List FsPath :=
  (r.request.processFiles.filter fun f => processFilePathValid f.path).map fun f =>
    processSegments f.path

def filesStep (r : FilesRun) (s : FilesVm) : FilesEvent → Option FilesVm
  | .install h =>
    match s.pc with
    | .outputRoot =>
      some { s with fs := FsTree.mkdir h s.fs r.outputRoot, pc := .program r.request.files }
    | .program [] => some { s with pc := .classpathRoot }
    | .program (file :: rest) => some (s.installProgram r h file rest)
    | .classpathRoot =>
      some { s with
        fs := FsTree.makeDirectories h (FsTree.mkdir h s.fs r.classpathRoot) r.classpathRoot
          apiSegments
        pc := .api apiRuntimeFiles }
    | .api [] => some { s with pc := .classpath r.request.classpath }
    | .api (name :: rest) => some (s.installApi r h name rest)
    | .classpath [] => some { s with pc := .process r.request.processFiles }
    | .classpath (file :: rest) => some (s.installClasspath r h file rest)
    | .process [] => some { s with pc := .java }
    | .process (file :: rest) => some (s.installProcess h file rest)
    | .java | .ended _ => none
  | .program fs =>
    match s.pc with
    | .java =>
      if ∀ p ∈ r.processPaths, fs.contentAt p = s.fs.contentAt p then some { s with fs := fs }
      else none
    | _ => none
  | .finish =>
    match s.pc with
    | .java => some { s with fs := s.cleanup r, pc := .ended none }
    | _ => none

end TraceJvm
