import TraceJvm.Lib.ByteAccess
import TraceJvm.Lib.OrderedMap

/-! `classpath.c`: the index that is made of the central directory of a JAR, whose numbers come
from a file that nobody has checked before. -/
namespace TraceJvm

open ByteAccess

/-- `TRACEJVM_MAX_JAR_BYTES` -/
def maxJarBytes : ℕ := 134217728

/-- `TRACEJVM_MAX_JAR_ENTRIES` -/
def maxJarEntries : ℕ := 32768

/-- `TRACEJVM_MAX_JAR_ENTRY_BYTES` -/
def maxJarEntryBytes : ℕ := 33554432

/-- `TRACEJVM_MAX_JAR_EXPANDED_BYTES` -/
def maxJarExpandedBytes : ℕ := 268435456

/-- Arithmetic in a `u64`. -/
def u64 (n : ℕ) : ℕ := n % 18446744073709551616

/-- `jar_entry`, with the offset of its bytes in the file. -/
structure JarEntry where
  data : ℕ
  compressedSize : ℕ
  claimedUncompressedSize : ℕ
  isCompressed : Bool

/-- `string_hash_table` of the entries. -/
abbrev JarEntries := List (List UInt8 × JarEntry)

structure MappedJar where
  entries : JarEntries
  data : List UInt8
  isMmap : Bool
  needsFree : Bool

inductive JarError where
  | exceedsSize (filename : List UInt8)
  | mmapFailed (filename : List UInt8)
  | inspectFailed
  | openFailed (filename : List UInt8)
  | missingEndRecord
  | multiDisk
  | directoryNotAtEnd
  | tooManyEntries
  | directoryOutOfBounds
  | cdrOutOfBounds (i : ℕ)
  | missingCdrHeader
  | variableDataOutOfBounds (i : ℕ)
  | emptyFilename (i : ℕ)
  | encrypted (i : ℕ)
  | exceedsEntryLimit (i : ℕ)
  | exceedsTotalLimit
  | localHeaderOutOfBounds (i : ℕ)
  | localSignatureMismatch (i : ℕ)
  | localDisagrees (i : ℕ)
  | dataOutOfBounds (i : ℕ)
  | unsupportedCompression (i compression : ℕ)
  | storedSizeMismatch (i : ℕ)
  | outOfMemory
  | duplicateFilename (filename : List UInt8)
  | sizeMismatch
  | invalid (filename : List UInt8) (e : JarError)

def cString (bs : List UInt8) : List UInt8 := bs.takeWhile (· ≠ 0)

/-- `%s`, with a character for each byte. -/
def printed (bs : List UInt8) : String :=
  String.ofList ((cString bs).map fun b => Char.ofNat b.toNat)

/-- `snprintf` into 256 bytes. -/
def snprintf256 (s : String) : String := String.ofList (s.toList.take 255)

def JarError.message : JarError → String
  | .exceedsSize f => snprintf256 s!"JAR file {printed f} exceeds the supported size"
  | .mmapFailed f => snprintf256 s!"Failed to mmap file {printed f}"
  | .inspectFailed => "Failed to inspect JAR size"
  | .openFailed f => snprintf256 s!"Failed to open file {printed f}"
  | .missingEndRecord => "Missing end of central directory record"
  | .multiDisk => "Multi-disk JARs not supported"
  | .directoryNotAtEnd => "Central directory does not end at the EOCD record"
  | .tooManyEntries => "too many entries in JAR"
  | .directoryOutOfBounds => "central directory out of bounds"
  | .cdrOutOfBounds i => s!"cdr {i} out of bounds"
  | .missingCdrHeader => "missing cdr header bytes"
  | .variableDataOutOfBounds i => s!"cdr {i} variable data out of bounds"
  | .emptyFilename i => s!"cdr {i} has an empty filename"
  | .encrypted i => s!"cdr {i} is encrypted"
  | .exceedsEntryLimit i => s!"cdr {i} exceeds the expanded entry limit"
  | .exceedsTotalLimit => "JAR exceeds the total expanded size limit"
  | .localHeaderOutOfBounds i => s!"cdr {i} local header out of bounds"
  | .localSignatureMismatch i => s!"cdr {i} local header signature mismatch"
  | .localDisagrees i => s!"cdr {i} disagrees with its local header"
  | .dataOutOfBounds i => s!"cdr {i} data out of bounds"
  | .unsupportedCompression i c =>
      s!"cdr {i} has unsupported compression type {c} (supported: 0, 8)"
  | .storedSizeMismatch i => s!"cdr {i} stored size mismatch"
  | .outOfMemory => "out of memory indexing JAR"
  | .duplicateFilename f => snprintf256 s!"duplicate filename in JAR: {printed f}"
  | .sizeMismatch => "central directory size mismatch"
  | .invalid f e => snprintf256 s!"Invalid JAR file {printed f}: {e.message}"

/-- `central_directory_record`, as far as it is read. -/
structure CentralDirectoryRecord where
  header : ℕ
  flags : ℕ
  compression : ℕ
  compressedSize : ℕ
  uncompressedSize : ℕ
  filenameLen : ℕ
  extraLen : ℕ
  commentLen : ℕ
  localHeaderOffset : ℕ

/-- `end_of_central_directory_record`, as far as it is read. -/
structure EndOfCentralDirectoryRecord where
  diskNumber : ℕ
  diskWithCd : ℕ
  numEntries : ℕ
  totalEntries : ℕ
  cdSize : ℕ
  cdOffset : ℕ

def cdrSizeBytes : ℕ := 46

def cdrHeader : ℕ := 0x02014b50

namespace CentralDirectoryRecord

def ofBytes (bs : List UInt8) : CentralDirectoryRecord where
  header := field bs 0 4
  flags := field bs 8 2
  compression := field bs 10 2
  compressedSize := field bs 20 4
  uncompressedSize := field bs 24 4
  filenameLen := field bs 28 2
  extraLen := field bs 30 2
  commentLen := field bs 32 2
  localHeaderOffset := field bs 42 4

def recordSize (r : CentralDirectoryRecord) : ℕ :=
  u64 (cdrSizeBytes + r.filenameLen + r.extraLen + r.commentLen)

end CentralDirectoryRecord

def EndOfCentralDirectoryRecord.ofBytes (bs : List UInt8) : EndOfCentralDirectoryRecord where
  diskNumber := field bs 4 2
  diskWithCd := field bs 6 2
  numEntries := field bs 8 2
  totalEntries := field bs 10 2
  cdSize := field bs 12 4
  cdOffset := field bs 16 4

abbrev JarFailure := JarError × JarEntries

def readCdr (data : List UInt8) (cdEnd cdOffset i : ℕ) (entries : JarEntries) :
    Access JarFailure CentralDirectoryRecord := do
  failIf (cdOffset > cdEnd ∨ cdrSizeBytes > cdEnd - cdOffset) (.cdrOutOfBounds i, entries)
  let bytes ← read data cdOffset cdrSizeBytes
  let cdr := CentralDirectoryRecord.ofBytes bytes
  failIf (cdr.header ≠ cdrHeader) (.missingCdrHeader, entries)
  failIf (cdr.recordSize > cdEnd - cdOffset) (.variableDataOutOfBounds i, entries)
  failIf (cdr.filenameLen = 0) (.emptyFilename i, entries)
  failIf (cdr.flags &&& 1 ≠ 0) (.encrypted i, entries)
  failIf (cdr.uncompressedSize > maxJarEntryBytes) (.exceedsEntryLimit i, entries)
  pure cdr

/-- The checks on the local header, with `data_offset`. -/
def locateData (data : List UInt8) (i : ℕ) (cdr : CentralDirectoryRecord) (entries : JarEntries) :
    Access JarFailure ℕ := do
  let header := cdr.localHeaderOffset
  failIf (header > data.length ∨ 30 > data.length - header) (.localHeaderOutOfBounds i, entries)
  let signature ← read data header 4
  failIf (signature ≠ [0x50, 0x4b, 3, 4]) (.localSignatureMismatch i, entries)
  let localFlags ← read data (header + 6) 2
  let localCompression ← read data (header + 8) 2
  let localFilenameLen ← read data (header + 26) 2
  let localExtraLen ← read data (header + 28) 2
  failIf (littleEndian localFlags ≠ cdr.flags ∨ littleEndian localCompression ≠ cdr.compression)
    (.localDisagrees i, entries)
  let dataOffset := u64 (header + 30 + littleEndian localFilenameLen + littleEndian localExtraLen)
  failIf (dataOffset > data.length ∨ cdr.compressedSize > data.length - dataOffset)
    (.dataOutOfBounds i, entries)
  pure dataOffset

def makeEntry (i dataOffset : ℕ) (cdr : CentralDirectoryRecord) (entries : JarEntries) :
    Access JarFailure JarEntry := do
  failIf (cdr.compression ≠ 0 ∧ cdr.compression ≠ 8)
    (.unsupportedCompression i cdr.compression, entries)
  failIf (cdr.compression = 0 ∧ cdr.compressedSize ≠ cdr.uncompressedSize)
    (.storedSizeMismatch i, entries)
  pure ⟨dataOffset, cdr.compressedSize, cdr.uncompressedSize, cdr.compression ≠ 0⟩

/-- The loop of `parse_central_directory`, which has `n` records to go. -/
def parseRecords (data : List UInt8) (cdEnd : ℕ) (mallocFails : ℕ → Bool) :
    ℕ → ℕ → ℕ → ℕ → JarEntries → Access JarFailure (ℕ × JarEntries)
  | 0, _, cdOffset, _, entries => pure (cdOffset, entries)
  | n + 1, i, cdOffset, expandedBytes, entries => do
      let cdr ← readCdr data cdEnd cdOffset i entries
      let expandedBytes := u64 (expandedBytes + cdr.uncompressedSize)
      failIf (expandedBytes > maxJarExpandedBytes) (.exceedsTotalLimit, entries)
      let dataOffset ← locateData data i cdr entries
      let entry ← makeEntry i dataOffset cdr entries
      failIf (mallocFails i = true) (.outOfMemory, entries)
      let filename ← read data (cdOffset + cdrSizeBytes) cdr.filenameLen
      let old := OrderedMap.get entries filename
      let entries := OrderedMap.set entries filename entry
      failIf (old.isSome = true) (.duplicateFilename filename, entries)
      parseRecords data cdEnd mallocFails n (i + 1) (u64 (cdOffset + cdr.recordSize)) expandedBytes
        entries

def parseCentralDirectory (data : List UInt8) (cdOffset cdSize expected : ℕ)
    (mallocFails : ℕ → Bool) : Access JarFailure JarEntries := do
  failIf (expected > maxJarEntries) (.tooManyEntries, [])
  failIf (cdOffset > data.length ∨ cdSize > data.length - cdOffset) (.directoryOutOfBounds, [])
  let cdEnd := u64 (cdOffset + cdSize)
  let r ← parseRecords data cdEnd mallocFails expected 0 cdOffset 0 []
  failIf (r.1 ≠ cdEnd) (.sizeMismatch, r.2)
  pure r.2

structure JarHost where
  /-- `USE_MMAP` -/
  useMmap : Bool
  contents : List UInt8 → Option (List UInt8)
  inspects : List UInt8 → Bool
  maps : List UInt8 → Bool

def mapJar (host : JarHost) (filename : List UInt8) : Except JarError MappedJar :=
  match host.contents filename with
  | none => .error (.openFailed filename)
  | some data =>
      if host.useMmap then
        if host.inspects filename = false ∨ data.length > maxJarBytes then
          .error (.exceedsSize filename)
        else if host.maps filename then .ok ⟨[], data, true, false⟩
        else .error (.mmapFailed filename)
      else if host.inspects filename = false then .error .inspectFailed
      else if data.length > maxJarBytes then .error (.exceedsSize filename)
      else .ok ⟨[], data, false, true⟩

/-- `load_filesystem_jar` on the bytes of the file. -/
def indexJar (data : List UInt8) (mallocFails : ℕ → Bool) : Access JarFailure JarEntries := do
  failIf (data.length < 22) (.missingEndRecord, [])
  let sig ← read data (data.length - 22) 4
  failIf (sig ≠ [0x50, 0x4b, 5, 6]) (.missingEndRecord, [])
  let bytes ← read data (data.length - 22) 22
  let eocdr := EndOfCentralDirectoryRecord.ofBytes bytes
  failIf (eocdr.diskNumber ≠ 0 ∨ eocdr.diskWithCd ≠ 0 ∨ eocdr.numEntries ≠ eocdr.totalEntries)
    (.multiDisk, [])
  failIf (u64 (eocdr.cdOffset + eocdr.cdSize) ≠ data.length - 22) (.directoryNotAtEnd, [])
  parseCentralDirectory data eocdr.cdOffset eocdr.cdSize eocdr.numEntries mallocFails

/-- `load_filesystem_jar`; an error comes with what the jar has become. -/
def loadFilesystemJar (host : JarHost) (mallocFails : ℕ → Bool) (filename : List UInt8) :
    Access (JarError × MappedJar) MappedJar :=
  match mapJar host filename with
  | .error e => .error (e, ⟨[], [], false, false⟩)
  | .ok jar => do
      let entries ← (indexJar jar.data mallocFails).mapError fun f =>
        (.invalid filename f.1, { jar with entries := f.2 })
      pure { jar with entries := entries }

/-- `enum jar_lookup_result` with the bytes of an entry that is found. -/
inductive JarLookupResult where
  | notFound
  | found (bytes : List UInt8)
  | corrupt

/-- What zlib makes of a stream: whether it has come to its end, the bytes that it has written and
the number of those that it has read. -/
structure Inflated where
  streamEnd : Bool
  out : List UInt8
  totalIn : ℕ

/-- `jar_lookup`; `inflate` gets the stream and the room for its result, and is `none` where
`inflateInit2` fails. -/
def jarLookup (jar : MappedJar) (inflate : List UInt8 → ℕ → Option Inflated) (mallocFails : Bool)
    (filename : List UInt8) : Access Empty JarLookupResult :=
  match OrderedMap.get jar.entries filename with
  | none => pure .notFound
  | some entry =>
      if mallocFails then pure .corrupt
      else if entry.isCompressed = false then do
        let bytes ← read jar.data entry.data entry.claimedUncompressedSize
        pure (.found bytes)
      else do
        let stream ← read jar.data entry.data entry.compressedSize
        let room := if entry.claimedUncompressedSize = 0 then 1 else entry.claimedUncompressedSize
        match inflate stream room with
        | none => pure .corrupt
        | some r =>
            if r.streamEnd = false ∨ r.out.length ≠ entry.claimedUncompressedSize ∨
                r.totalIn ≠ entry.compressedSize then
              pure .corrupt
            else pure (.found r.out)

end TraceJvm
