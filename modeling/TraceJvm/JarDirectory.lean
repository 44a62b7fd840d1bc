import TraceJvm.JarIndex
import Mathlib.Algebra.Order.Group.Nat
import Mathlib.Algebra.BigOperators.Group.List.Basic
import Mathlib.Data.List.Nodup

/-! What a JAR is that has been indexed: its central directory is a chain of records that ends at
the end record, and nothing outside the file has been read. -/
namespace TraceJvm

open ByteAccess ByteAccess.Access List

namespace CentralDirectoryRecord

def extent (r : CentralDirectoryRecord) : ℕ :=
  cdrSizeBytes + r.filenameLen + r.extraLen + r.commentLen

theorem recordSize_ofBytes (bs : List UInt8) : (ofBytes bs).recordSize = (ofBytes bs).extent := by
  have hname : (ofBytes bs).filenameLen < 256 ^ 2 := field_lt bs 28 2
  have hextra : (ofBytes bs).extraLen < 256 ^ 2 := field_lt bs 30 2
  have hcomment : (ofBytes bs).commentLen < 256 ^ 2 := field_lt bs 32 2
  unfold recordSize extent u64 cdrSizeBytes
  apply Nat.mod_eq_of_lt
  omega

end CentralDirectoryRecord

structure CdrAt (data : List UInt8) (cdEnd off : ℕ) (cdr : CentralDirectoryRecord) : Prop where
  fields : cdr = .ofBytes (slice data off cdrSizeBytes)
  header : cdr.header = cdrHeader
  fits : off + cdr.extent ≤ cdEnd
  named : cdr.filenameLen ≠ 0
  plain : cdr.flags &&& 1 = 0
  limit : cdr.uncompressedSize ≤ maxJarEntryBytes

structure LocalAt (data : List UInt8) (cdr : CentralDirectoryRecord) (dataOffset : ℕ) : Prop where
  header : cdr.localHeaderOffset + 30 ≤ data.length
  signature : slice data cdr.localHeaderOffset 4 = [0x50, 0x4b, 3, 4]
  flags : field data (cdr.localHeaderOffset + 6) 2 = cdr.flags
  compression : field data (cdr.localHeaderOffset + 8) 2 = cdr.compression
  start : dataOffset = cdr.localHeaderOffset + 30 + field data (cdr.localHeaderOffset + 26) 2 +
    field data (cdr.localHeaderOffset + 28) 2
  inside : dataOffset + cdr.compressedSize ≤ data.length

structure EntryOf (cdr : CentralDirectoryRecord) (entry : JarEntry) : Prop where
  method : cdr.compression = 0 ∨ cdr.compression = 8
  isCompressed : entry.isCompressed = true ↔ cdr.compression ≠ 0
  compressedSize : entry.compressedSize = cdr.compressedSize
  claimed : entry.claimedUncompressedSize = cdr.uncompressedSize
  stored : entry.isCompressed = false → entry.compressedSize = entry.claimedUncompressedSize

structure IndexedRecord where
  offset : ℕ
  cdr : CentralDirectoryRecord
  entry : JarEntry

def IndexedRecord.filename (data : List UInt8) (r : IndexedRecord) : List UInt8 :=
  slice data (r.offset + cdrSizeBytes) r.cdr.filenameLen

structure RecordOk (data : List UInt8) (cdEnd : ℕ) (r : IndexedRecord) : Prop where
  cdr : CdrAt data cdEnd r.offset r.cdr
  localHeader : LocalAt data r.cdr r.entry.data
  entry : EntryOf r.cdr r.entry

/-- Records that follow each other from one offset to another without a gap. -/
def Directory (data : List UInt8) (cdEnd : ℕ) : ℕ → List IndexedRecord → ℕ → Prop
  | off, [], last => off = last
  | off, r :: rs, last =>
      r.offset = off ∧ RecordOk data cdEnd r ∧ Directory data cdEnd (off + r.cdr.extent) rs last

def indexOf (data : List UInt8) (records : List IndexedRecord) : JarEntries :=
  records.map fun r => (r.filename data, r.entry)

/-- What `load_filesystem_jar` makes sure of. -/
structure JarIndexed (data : List UInt8) (entries : JarEntries) : Prop where
  /-- The directory has the announced number of records and the announced size, and ends where the
  end record begins. -/
  directory : ∃ records : List IndexedRecord, entries = indexOf data records ∧
    records.length = field data (data.length - 22 + 8) 2 ∧
    field data (data.length - 22 + 16) 4 + field data (data.length - 22 + 12) 4 =
      data.length - 22 ∧
    Directory data (data.length - 22) (field data (data.length - 22 + 16) 4) records
      (data.length - 22)
  named : ∀ p ∈ entries, p.1 ≠ []
  distinct : (entries.map Prod.fst).Nodup
  inside : ∀ p ∈ entries, p.2.data + p.2.compressedSize ≤ data.length
  stored : ∀ p ∈ entries, p.2.isCompressed = false →
    p.2.compressedSize = p.2.claimedUncompressedSize
  count : entries.length ≤ maxJarEntries
  entryLimit : ∀ p ∈ entries, p.2.claimedUncompressedSize ≤ maxJarEntryBytes
  totalLimit : (entries.map fun p => p.2.claimedUncompressedSize).sum ≤ maxJarExpandedBytes

variable {data : List UInt8} {cdEnd : ℕ}

/-! ### One record -/

theorem readCdr_ensures (hend : cdEnd ≤ data.length) (off i : ℕ) (entries : JarEntries) :
    (readCdr data cdEnd off i entries).Ensures (fun _ => True) (CdrAt data cdEnd off) := by
  unfold readCdr
  apply Ensures.failIf
  intro hbounds
  apply Ensures.bind (read_ensures (by omega))
  intro bytes hbytes
  subst hbytes
  apply Ensures.failIf
  intro hheader
  apply Ensures.failIf
  intro hsize
  rw [CentralDirectoryRecord.recordSize_ofBytes] at hsize
  apply Ensures.failIf
  intro hnamed
  apply Ensures.failIf
  intro hplain
  apply Ensures.failIf
  intro hlimit
  exact {
    fields := rfl
    header := not_not.mp hheader
    fits := by omega
    named := hnamed
    plain := not_not.mp hplain
    limit := Nat.not_lt.mp hlimit }

theorem locateData_ensures (hdata : data.length ≤ maxJarBytes) (i : ℕ)
    (cdr : CentralDirectoryRecord) (entries : JarEntries) :
    (locateData data i cdr entries).Ensures (fun _ => True) (LocalAt data cdr) := by
  unfold locateData
  apply Ensures.failIf
  intro hheader
  have hinside : cdr.localHeaderOffset + 30 ≤ data.length := by omega
  apply Ensures.bind (read_ensures (by omega))
  intro signature hsignature
  apply Ensures.failIf
  intro hmatch
  apply Ensures.bind (read_ensures (by omega))
  intro flags hflags
  apply Ensures.bind (read_ensures (by omega))
  intro compression hcompression
  apply Ensures.bind (read_ensures (by omega))
  intro nameLen hname
  apply Ensures.bind (read_ensures (by omega))
  intro extraLen hextra
  subst hsignature hflags hcompression hname hextra
  apply Ensures.failIf
  intro hagree
  have hnameLt : field data (cdr.localHeaderOffset + 26) 2 < 256 ^ 2 := field_lt _ _ _
  have hextraLt : field data (cdr.localHeaderOffset + 28) 2 < 256 ^ 2 := field_lt _ _ _
  -- an offset in a file of at most 128 MiB and two lengths of 16 bits do not wrap
  have hstart : u64 (cdr.localHeaderOffset + 30 + field data (cdr.localHeaderOffset + 26) 2 +
      field data (cdr.localHeaderOffset + 28) 2) = cdr.localHeaderOffset + 30 +
        field data (cdr.localHeaderOffset + 26) 2 + field data (cdr.localHeaderOffset + 28) 2 := by
    unfold u64
    unfold maxJarBytes at hdata
    apply Nat.mod_eq_of_lt
    omega
  apply Ensures.failIf
  intro hbounds
  obtain ⟨hflags, hcompression⟩ := not_or.mp hagree
  exact {
    header := hinside
    signature := not_not.mp hmatch
    flags := not_not.mp hflags
    compression := not_not.mp hcompression
    start := hstart
    inside := by omega }

theorem makeEntry_ensures (i dataOffset : ℕ) (cdr : CentralDirectoryRecord)
    (entries : JarEntries) :
    (makeEntry i dataOffset cdr entries).Ensures (fun _ => True) fun entry =>
      EntryOf cdr entry ∧ entry.data = dataOffset := by
  unfold makeEntry
  apply Ensures.failIf
  intro hmethod
  apply Ensures.failIf
  intro hstored
  constructor
  · exact {
      method := by omega
      isCompressed := decide_eq_true_iff
      compressedSize := rfl
      claimed := rfl
      stored := by
        intro hplain
        have hzero : cdr.compression = 0 := not_not.mp (of_decide_eq_false hplain)
        exact not_not.mp fun hne => hstored ⟨hzero, hne⟩ }
  · rfl

/-! ### The loop -/

structure Indexing (data : List UInt8) (cdEnd off n expandedBytes : ℕ) (entries : JarEntries)
    (r : ℕ × JarEntries) (records : List IndexedRecord) : Prop where
  length : records.length = n
  directory : Directory data cdEnd off records r.1
  entries : r.2 = entries ++ indexOf data records
  distinct : (r.2.map Prod.fst).Nodup
  expanded : expandedBytes + (records.map fun r => r.cdr.uncompressedSize).sum ≤
    maxJarExpandedBytes

theorem parseRecords_ensures (hend : cdEnd ≤ data.length) (hdata : data.length ≤ maxJarBytes)
    (mallocFails : ℕ → Bool) (n i off expandedBytes : ℕ) (entries : JarEntries)
    (hkeys : (entries.map Prod.fst).Nodup) (hexpanded : expandedBytes ≤ maxJarExpandedBytes) :
    (parseRecords data cdEnd mallocFails n i off expandedBytes entries).Ensures (fun _ => True)
      fun r => ∃ records, Indexing data cdEnd off n expandedBytes entries r records := by
  induction n generalizing i off expandedBytes entries with
  | zero =>
    use []
    exact {
      length := rfl
      directory := rfl
      entries := (append_nil entries).symm
      distinct := hkeys
      expanded := hexpanded }
  | succ n ih =>
    unfold parseRecords
    apply Ensures.bind (readCdr_ensures hend off i entries)
    intro cdr hcdr
    have hlimit := hcdr.limit
    have hfits := hcdr.fits
    have hsum : u64 (expandedBytes + cdr.uncompressedSize) =
        expandedBytes + cdr.uncompressedSize := by
      unfold u64
      unfold maxJarExpandedBytes at hexpanded
      unfold maxJarEntryBytes at hlimit
      apply Nat.mod_eq_of_lt
      omega
    have hsize : cdr.recordSize = cdr.extent := by
      rw [hcdr.fields]
      exact CentralDirectoryRecord.recordSize_ofBytes _
    have hnext : u64 (off + cdr.recordSize) = off + cdr.extent := by
      rw [hsize]
      unfold u64
      unfold maxJarBytes at hdata
      apply Nat.mod_eq_of_lt
      omega
    apply Ensures.failIf
    intro htotal
    rw [hsum] at htotal
    apply Ensures.bind (locateData_ensures hdata i cdr entries)
    intro dataOffset hlocal
    apply Ensures.bind (makeEntry_ensures i dataOffset cdr entries)
    intro entry hentry
    obtain ⟨hentry, hoffset⟩ := hentry
    subst hoffset
    apply Ensures.failIf
    intro _
    have hname : off + cdrSizeBytes + cdr.filenameLen ≤ data.length := by
      unfold CentralDirectoryRecord.extent at hfits
      omega
    apply Ensures.bind (read_ensures hname)
    intro filename hfilename
    subst hfilename
    apply Ensures.failIf
    intro hfresh
    have hnone := Option.not_isSome_iff_eq_none.mp hfresh
    rw [hnext, hsum, OrderedMap.set_of_get_none _ hnone]
    have hkeys' : ((entries ++ [(slice data (off + cdrSizeBytes) cdr.filenameLen, entry)]).map
        Prod.fst).Nodup := by
      rw [map_append, map_singleton]
      apply List.Nodup.append hkeys (nodup_singleton _)
      apply disjoint_singleton.mpr
      intro hmem
      obtain ⟨p, hp, hkey⟩ := mem_map.mp hmem
      exact OrderedMap.get_eq_none.mp hnone p hp hkey
    apply Ensures.mono (ih (i + 1) _ _ _ hkeys' (Nat.not_lt.mp htotal)) (fun _ _ => trivial)
    intro r hr
    obtain ⟨records, hrest⟩ := hr
    use ⟨off, cdr, entry⟩ :: records
    exact {
      length := congrArg Nat.succ hrest.length
      directory := ⟨rfl, ⟨hcdr, hlocal, hentry⟩, hrest.directory⟩
      entries := by
        rw [hrest.entries, append_assoc]
        rfl
      distinct := hrest.distinct
      expanded := by
        have h := hrest.expanded
        rw [map_cons, sum_cons, ← Nat.add_assoc]
        exact h }

variable {records : List IndexedRecord}

theorem Directory.forall_ok {off last : ℕ}
    (h : Directory data cdEnd off records last) : ∀ r ∈ records, RecordOk data cdEnd r := by
  induction records generalizing off with
  | nil => exact fun r hr => absurd hr not_mem_nil
  | cons r records ih =>
    obtain ⟨-, hr, hrest⟩ := h
    exact forall_mem_cons.mpr ⟨hr, ih hrest⟩

theorem Directory.sizes {off last : ℕ} (h : Directory data cdEnd off records last) :
    (indexOf data records).map (fun p => p.2.claimedUncompressedSize) =
      records.map fun r => r.cdr.uncompressedSize := by
  unfold indexOf
  rw [map_map]
  apply map_congr_left
  intro r hr
  exact (h.forall_ok r hr).entry.claimed

theorem Directory.forall_entries {off last : ℕ}
    (h : Directory data cdEnd off records last) {P : List UInt8 × JarEntry → Prop}
    (hP : ∀ r, RecordOk data cdEnd r → P (r.filename data, r.entry)) :
    ∀ p ∈ indexOf data records, P p := by
  intro p hp
  obtain ⟨r, hr, heq⟩ := mem_map.mp hp
  rw [← heq]
  exact hP r (h.forall_ok r hr)

/-! ### The whole file -/

theorem parseCentralDirectory_ensures (hdata : data.length ≤ maxJarBytes)
    (cdOffset cdSize expected : ℕ) (mallocFails : ℕ → Bool) :
    (parseCentralDirectory data cdOffset cdSize expected mallocFails).Ensures (fun _ => True)
      fun entries => expected ≤ maxJarEntries ∧ ∃ records,
        Indexing data (cdOffset + cdSize) cdOffset expected 0 [] (cdOffset + cdSize, entries)
          records := by
  unfold parseCentralDirectory
  apply Ensures.failIf
  intro hcount
  apply Ensures.failIf
  intro hbounds
  have hend : u64 (cdOffset + cdSize) = cdOffset + cdSize := by
    unfold u64
    unfold maxJarBytes at hdata
    apply Nat.mod_eq_of_lt
    omega
  rw [hend]
  apply Ensures.bind (parseRecords_ensures (by omega) hdata mallocFails expected 0 cdOffset 0 []
    nodup_nil (Nat.zero_le _))
  intro r hr
  obtain ⟨records, hrecords⟩ := hr
  apply Ensures.failIf
  intro hfilled
  constructor
  · exact Nat.not_lt.mp hcount
  · use records
    have hlast : r.1 = cdOffset + cdSize := not_not.mp hfilled
    rw [← hlast] at hrecords ⊢
    exact hrecords

theorem indexJar_ensures (hdata : data.length ≤ maxJarBytes) (mallocFails : ℕ → Bool) :
    (indexJar data mallocFails).Ensures (fun _ => True) (JarIndexed data) := by
  unfold indexJar
  apply Ensures.failIf
  intro hlong
  have hlength : data.length - 22 + 22 = data.length := by omega
  apply Ensures.bind (read_ensures (by omega))
  intro sig _
  apply Ensures.failIf
  intro _
  apply Ensures.bind (read_ensures (by omega))
  intro bytes hbytes
  subst hbytes
  have hnum := field_slice data (data.length - 22) (show 8 + 2 ≤ 22 by omega)
  have hsize := field_slice data (data.length - 22) (show 12 + 4 ≤ 22 by omega)
  have hoff := field_slice data (data.length - 22) (show 16 + 4 ≤ 22 by omega)
  have hsizeLt : field data (data.length - 22 + 12) 4 < 256 ^ 4 := field_lt _ _ _
  have hoffLt : field data (data.length - 22 + 16) 4 < 256 ^ 4 := field_lt _ _ _
  apply Ensures.failIf
  intro _
  apply Ensures.failIf
  intro hends
  dsimp only [EndOfCentralDirectoryRecord.ofBytes] at hends ⊢
  rw [hnum, hsize, hoff]
  rw [hsize, hoff] at hends
  have hfills : field data (data.length - 22 + 16) 4 + field data (data.length - 22 + 12) 4 =
      data.length - 22 := by
    unfold u64 at hends
    omega
  apply Ensures.mono (parseCentralDirectory_ensures hdata _ _ _ mallocFails) (fun _ _ => trivial)
  intro entries hparsed
  obtain ⟨hcount, records, hrecords⟩ := hparsed
  rw [hfills] at hrecords
  have hentries : entries = indexOf data records := hrecords.entries
  have hdirectory := hrecords.directory
  subst hentries
  have hexpanded := hrecords.expanded
  rw [Nat.zero_add] at hexpanded
  exact {
    directory := ⟨records, rfl, hrecords.length, hfills, hdirectory⟩
    named := by
      apply hdirectory.forall_entries (P := fun p => p.1 ≠ [])
      intro r hr hnil
      have hfits := hr.cdr.fits
      have hnamed := hr.cdr.named
      unfold CentralDirectoryRecord.extent at hfits
      have hslice := slice_length data (r.offset + cdrSizeBytes) r.cdr.filenameLen (by omega)
      have hempty : (r.filename data).length = 0 := length_eq_zero_iff.mpr hnil
      exact hnamed (hslice.symm.trans hempty)
    distinct := hrecords.distinct
    inside := by
      apply hdirectory.forall_entries
        (P := fun p => p.2.data + p.2.compressedSize ≤ data.length)
      intro r hr
      have hlocal := hr.localHeader.inside
      rw [← hr.entry.compressedSize] at hlocal
      exact hlocal
    stored := by
      apply hdirectory.forall_entries (P := fun p => p.2.isCompressed = false →
        p.2.compressedSize = p.2.claimedUncompressedSize)
      intro r hr
      exact hr.entry.stored
    count := by
      have hrecordsLength := hrecords.length
      unfold indexOf
      rw [length_map, hrecordsLength]
      exact hcount
    entryLimit := by
      apply hdirectory.forall_entries
        (P := fun p => p.2.claimedUncompressedSize ≤ maxJarEntryBytes)
      intro r hr
      dsimp only
      rw [hr.entry.claimed]
      exact hr.cdr.limit
    totalLimit := by
      rw [hdirectory.sizes]
      exact hexpanded }

theorem mapJar_length {host : JarHost} {filename : List UInt8} {jar : MappedJar}
    (h : mapJar host filename = .ok jar) :
    host.contents filename = some jar.data ∧ jar.data.length ≤ maxJarBytes := by
  unfold mapJar at h
  split at h
  · cases h
  · rename_i data hdata
    split at h
    · split at h
      · cases h
      · rename_i hsize
        split at h
        · cases h
          exact ⟨hdata, Nat.not_lt.mp (not_or.mp hsize).2⟩
        · cases h
    · split at h
      · cases h
      · split at h
        · cases h
        · rename_i hsize
          cases h
          exact ⟨hdata, Nat.not_lt.mp hsize⟩

theorem loadFilesystemJar_ensures (host : JarHost) (mallocFails : ℕ → Bool)
    (filename : List UInt8) :
    (loadFilesystemJar host mallocFails filename).Ensures (fun _ => True) fun jar =>
      host.contents filename = some jar.data ∧ JarIndexed jar.data jar.entries := by
  unfold loadFilesystemJar
  split
  · exact trivial
  · rename_i jar hjar
    obtain ⟨hcontents, hlength⟩ := mapJar_length hjar
    have hindex := indexJar_ensures hlength mallocFails
    have hmapped : ((indexJar jar.data mallocFails).mapError fun f =>
        (JarError.invalid filename f.1, { jar with entries := f.2 })).Ensures (fun _ => True)
          (JarIndexed jar.data) := hindex.mapError fun _ _ => trivial
    apply Ensures.bind hmapped
    intro entries hentries
    exact ⟨hcontents, hentries⟩

/-- A lookup reads inside the file, and finds the bytes of a stored entry. -/
theorem jarLookup_ensures {jar : MappedJar} (h : JarIndexed jar.data jar.entries)
    (inflate : List UInt8 → ℕ → Option Inflated) (mallocFails : Bool) (filename : List UInt8) :
    (jarLookup jar inflate mallocFails filename).Ensures (fun _ => False) fun r =>
      ∀ e, (filename, e) ∈ jar.entries → e.isCompressed = false → mallocFails = false →
        r = .found (slice jar.data e.data e.claimedUncompressedSize) := by
  unfold jarLookup
  split
  · rename_i hnone
    intro e he
    exact absurd rfl (OrderedMap.get_eq_none.mp hnone _ he)
  · rename_i entry hentry
    have hmem := OrderedMap.mem_of_get hentry
    have hinside := h.inside _ hmem
    have honly : ∀ e, (filename, e) ∈ jar.entries → e = entry := by
      intro e he
      exact Option.some.inj ((OrderedMap.get_of_mem h.distinct he).symm.trans hentry)
    split
    · rename_i hfails
      intro e _ _ hworks
      rw [hworks] at hfails
      cases hfails
    · split
      · rename_i hstored
        have hsize := h.stored _ hmem hstored
        dsimp only at hinside hsize
        apply Ensures.bind (read_ensures (by omega))
        intro bytes hbytes e he _ _
        rw [honly e he, hbytes]
      · rename_i hcompressed
        apply Ensures.bind (read_ensures hinside)
        intro stream _
        have hother (r : JarLookupResult) : ∀ e, (filename, e) ∈ jar.entries →
            e.isCompressed = false → mallocFails = false →
              r = .found (slice jar.data e.data e.claimedUncompressedSize) := by
          intro e he hplain
          rw [honly e he] at hplain
          exact absurd hplain hcompressed
        dsimp only
        split
        · exact hother _
        · split
          · exact hother _
          · exact hother _

/-- Whatever a file holds: to load it as a JAR and to look entries up reads nothing outside of it,
and a JAR that loads is indexed as its directory says. -/
theorem jar_index_valid (host : JarHost) (mallocFails : ℕ → Bool) (filename : List UInt8) :
    (loadFilesystemJar host mallocFails filename).Ensures (fun _ => True) fun jar =>
      host.contents filename = some jar.data ∧ JarIndexed jar.data jar.entries ∧
        ∀ (inflate : List UInt8 → ℕ → Option Inflated) (fails : Bool) (name : List UInt8),
          (jarLookup jar inflate fails name).Ensures (fun _ => False) fun r =>
            ∀ e, (name, e) ∈ jar.entries → e.isCompressed = false → fails = false →
              r = .found (slice jar.data e.data e.claimedUncompressedSize) := by
  apply Ensures.mono (loadFilesystemJar_ensures host mallocFails filename) (fun _ h => h)
  intro jar h
  constructor
  · exact h.1
  constructor
  · exact h.2
  · intro inflate fails name
    exact jarLookup_ensures h.2 inflate fails name

end TraceJvm
