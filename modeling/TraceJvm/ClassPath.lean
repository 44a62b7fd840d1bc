import TraceJvm.JarIndex
import TraceJvm.Lib.BlockStore
import Mathlib.Data.List.Chain

/-! `init_classpath`, which splits a path at its colons, and what it has allocated. -/
namespace TraceJvm

open ByteAccess BlockStore

/-- A `mapped_jar` with its blocks: the structure, the table, the bytes of the file and what the
table holds for each entry. -/
structure OwnedJar where
  jar : MappedJar
  block : ℕ
  table : ℕ
  mapping : Option ℕ
  nodes : List ℕ
  mapped : mapping.isSome = (jar.isMmap || jar.needsFree)

structure ClasspathEntry where
  name : List UInt8
  nameBlock : ℕ
  jar : Option OwnedJar

structure Classpath where
  entries : List ClasspathEntry
  entriesBlock : Option ℕ
  asColonSeparated : List UInt8
  separatedBlock : Option ℕ

/-- What `memset` leaves. -/
def Classpath.zero : Classpath := ⟨[], none, [], none⟩

/-- `free` and `arrfree`, which ignore a null pointer. -/
def freeBlock (s : Store) : Option ℕ → Option Store
  | none => some s
  | some block => s.free block

/-- The blocks that `load_filesystem_jar` has allocated for what the jar has become. -/
def MappedJar.own (jar : MappedJar) (block table : ℕ) (s : Store) : OwnedJar × Store :=
  if h : (jar.isMmap || jar.needsFree) = true then
    (⟨jar, block, table, some s.alloc.1, (s.alloc.2.allocMany jar.entries.length).1, h.symm⟩,
      (s.alloc.2.allocMany jar.entries.length).2)
  else
    (⟨jar, block, table, none, (s.allocMany jar.entries.length).1, (Bool.not_eq_true _ ▸ h).symm⟩,
      (s.allocMany jar.entries.length).2)

/-- What `free_jar` does with the bytes of the file: `free`, nothing, or `munmap`. -/
def freeJarData (j : OwnedJar) (s : Store) : Option Store :=
  if j.jar.isMmap = false then
    if j.jar.needsFree = true then freeBlock s j.mapping else some s
  else freeBlock s j.mapping

def freeJar (j : OwnedJar) (s : Store) : Option Store := do
  let s ← s.freeAll j.nodes
  let s ← s.free j.table
  let s ← freeJarData j s
  s.free j.block

/-- The loop of `free_classpath`. -/
def freeEntries : List ClasspathEntry → Store → Option Store
  | [], s => some s
  | e :: entries, s => do
      let s ← s.free e.nameBlock
      let s ← match e.jar with
        | none => some s
        | some j => freeJar j s
      freeEntries entries s

def freeClasspath (cp : Classpath) (s : Store) : Option (Classpath × Store) := do
  let s ← freeEntries cp.entries s
  let s ← freeBlock s cp.entriesBlock
  let s ← freeBlock s cp.separatedBlock
  pure (.zero, s)

/-- `arrput` of an entry with its name. -/
def putEntry (cp : Classpath) (name : List UInt8) (jar : Option OwnedJar) (s : Store) :
    Classpath × Store :=
  let e : ClasspathEntry := ⟨name, s.alloc.1, jar⟩
  match cp.entriesBlock with
  | some _ => ({ cp with entries := cp.entries ++ [e] }, s.alloc.2)
  | none =>
      ({ cp with entries := cp.entries ++ [e], entriesBlock := some s.alloc.2.alloc.1 },
        s.alloc.2.alloc.2)

/-- `add_classpath_jar`; `none` for a read outside the file or a block that is freed twice. -/
def addClasspathJar (host : JarHost) (mallocFails : ℕ → Bool) (cp : Classpath)
    (entry : List UInt8) (s : Store) : Option (Option JarError × Classpath × Store) :=
  let block := s.alloc.1
  let s := s.alloc.2
  let table := s.alloc.1
  let s := s.alloc.2
  let filename := s.alloc.1
  let s := s.alloc.2
  match loadFilesystemJar host mallocFails (cString entry) with
  | .fault => none
  | .error (e, jar) => do
      let r := jar.own block table s
      let s ← r.2.free filename
      let s ← freeJar r.1 s
      pure (some e, cp, s)
  | .ok jar => do
      let r := jar.own block table s
      let s ← r.2.free filename
      pure (none, putEntry cp entry (some r.1) s)

/-- The name ends in `.jar`. -/
def isJarName (entry : List UInt8) : Prop :=
  4 ≤ entry.length ∧ entry.drop (entry.length - 4) = [0x2e, 0x6a, 0x61, 0x72]

instance (entry : List UInt8) : Decidable (isJarName entry) :=
  inferInstanceAs (Decidable (_ ∧ _))

def addClasspathEntry (host : JarHost) (mallocFails : ℕ → Bool) (cp : Classpath)
    (entry : List UInt8) (s : Store) : Option (Option JarError × Classpath × Store) :=
  if isJarName entry then addClasspathJar host mallocFails cp entry s
  else some (none, putEntry cp entry none s)

def pathSeparator : UInt8 := 0x3a

/-- The loop of `init_classpath` from index `i`, with `n` iterations to go. -/
def scanPath (host : JarHost) (mallocFails : ℕ → ℕ → Bool) (path : List UInt8) :
    ℕ → ℕ → ℕ → Classpath → Store → Option (Option JarError × Classpath × Store)
  | 0, _, _, cp, s => some (none, cp, s)
  | n + 1, i, start, cp, s =>
      if i = path.length ∨ path[i]? = some pathSeparator then
        let entry := (path.drop start).take (i - start)
        if entry.length = 0 then scanPath host mallocFails path n (i + 1) start cp s
        else
          match addClasspathEntry host (mallocFails cp.entries.length) cp entry s with
          | none => none
          | some (some e, cp, s) => (freeClasspath cp s).map fun r => (some e, r)
          | some (none, cp, s) => scanPath host mallocFails path n (i + 1) (i + 1) cp s
      else scanPath host mallocFails path n (i + 1) start cp s

/-- `init_classpath`. `mallocFails` is for each entry which of the allocations of its index
fail. -/
def initClasspath (host : JarHost) (mallocFails : ℕ → ℕ → Bool) (path : List UInt8) (s : Store) :
    Option (Option JarError × Classpath × Store) :=
  scanPath host mallocFails path (path.length + 1) 0 0 ⟨[], none, path, some s.alloc.1⟩ s.alloc.2

end TraceJvm
