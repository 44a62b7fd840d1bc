import Mathlib.Data.List.TakeWhile

/-! The keys by which the methods of the superinterfaces are compared. All of them are written to
one scratch string, whose length is also taken for its capacity. -/
namespace TraceJvm

open List

/-- `cp_method`, and whether its class is an interface. -/
structure NamedMethod where
  name : List UInt8
  descriptor : List UInt8
  ofInterface : Bool
deriving DecidableEq

/-- `stpncpy(dst, src, n)` up to what it returns; the rest of the `n` bytes is filled with zeros. -/
def stpncpy (src : List UInt8) (n : ℕ) : List UInt8 := (src.takeWhile (· ≠ 0)).take n

/-- `INIT_STACK_STRING(scratch, 1024)` has room for one byte more. -/
def scratchBytes : ℕ := 1025

namespace NamedMethod

/-- `identify` with `len` as the length of the scratch string: the key, and the new length. Zeros
included it writes `len + 1` bytes; `none` is a write beyond the buffer. -/
def identify (len : ℕ) (m : NamedMethod) : Option (List UInt8 × ℕ) :=
  if scratchBytes < len + 1 then none
  else
    let name := stpncpy m.name len
    let key := name ++ 58 :: stpncpy m.descriptor (len - name.length)
    some (key, key.length)

/-- The keys of methods that are identified one after the other. -/
def identifyAll : ℕ → List NamedMethod → Option (List (List UInt8))
  | _, [] => some []
  | len, m :: ms => (m.identify len).bind fun (key, len) => (identifyAll len ms).map (key :: ·)

/-- The methods that `setup_itables` identifies, given the itables of each supertype. -/
def compared (sources : List (List (List NamedMethod))) : List NamedMethod :=
  (sources.flatMap List.flatten).filter ofInterface

def setupItablesKeys (sources : List (List (List NamedMethod))) : Option (List (List UInt8)) :=
  identifyAll 1024 (compared sources)

/-- The keys of `merge_itable` for the methods of `dst`. -/
def mergeItableKeys (dst : List NamedMethod) : Option (List (List UInt8)) := identifyAll 1024 dst

/-! ### What is expected of the keys -/

def fullKey (m : NamedMethod) : List UInt8 := m.name ++ 58 :: m.descriptor

/-- Every method has its full key, and shares it with those of its name and descriptor only. -/
structure Identified (methods : List NamedMethod) (keys : Option (List (List UInt8))) : Prop where
  full : keys = some (methods.map fullKey)
  injective : ∀ m ∈ methods, ∀ m' ∈ methods,
    m.fullKey = m'.fullKey ↔ m.name = m'.name ∧ m.descriptor = m'.descriptor

/-- The length of the name and the descriptor together. -/
def size (m : NamedMethod) : ℕ := m.name.length + m.descriptor.length

/-- No method is longer by two than the one before it, and no text ends early. -/
def Fits : ℕ → List NamedMethod → Prop
  | _, [] => True
  | len, m :: ms => len ≤ 1024 ∧ (0 ∉ m.name ∧ 0 ∉ m.descriptor ∧ m.size ≤ len) ∧
      Fits (m.size + 1) ms

/-- No name with a colon reads as another name and the beginning of its descriptor. -/
def Separate (methods : List NamedMethod) : Prop :=
  ∀ m ∈ methods, ∀ m' ∈ methods, ∀ u, m'.name = m.name ++ 58 :: u →
    m.descriptor ≠ u ++ 58 :: m'.descriptor

variable {m m' : NamedMethod} {len : ℕ}

theorem stpncpy_length_le (src : List UInt8) (n : ℕ) : (stpncpy src n).length ≤ src.length := by
  unfold stpncpy
  rw [length_take]
  have hpre := takeWhile_prefix (p := (· ≠ (0 : UInt8))) (l := src)
  have hle := hpre.length_le
  omega

theorem stpncpy_eq_iff (src : List UInt8) (n : ℕ) :
    stpncpy src n = src ↔ 0 ∉ src ∧ src.length ≤ n := by
  have hwhile : src.takeWhile (· ≠ 0) = src ↔ 0 ∉ src := by
    rw [takeWhile_eq_self_iff]
    simp only [decide_eq_true_eq]
    exact ⟨fun h hmem => h 0 hmem rfl, fun h x hx hzero => h (hzero ▸ hx)⟩
  constructor
  · intro h
    have hlen := congrArg List.length h
    have hpre := takeWhile_prefix (p := (· ≠ (0 : UInt8))) (l := src)
    have hle := hpre.length_le
    unfold stpncpy at hlen
    rw [length_take] at hlen
    refine ⟨hwhile.mp (hpre.eq_of_length (by omega)), by omega⟩
  · rintro ⟨hzero, hle⟩
    rw [stpncpy, hwhile.mpr hzero, take_of_length_le hle]

theorem identify_full_iff {len' : ℕ} : m.identify len = some (m.fullKey, len') ↔
    len ≤ 1024 ∧ (0 ∉ m.name ∧ 0 ∉ m.descriptor ∧ m.size ≤ len) ∧ len' = m.size + 1 := by
  have hname := stpncpy_eq_iff m.name len
  have hdescriptor := stpncpy_eq_iff m.descriptor (len - m.name.length)
  unfold identify
  split
  · rename_i hover
    constructor
    · nofun
    · rintro ⟨hlen, -⟩
      exact absurd hover (by unfold scratchBytes; omega)
  · rename_i hroom
    have hlen : len ≤ 1024 := by
      unfold scratchBytes at hroom
      omega
    dsimp only
    rw [Option.some.injEq, Prod.mk.injEq]
    constructor
    · rintro ⟨hkey, rfl⟩
      have htotal := congrArg List.length hkey
      have h₁ := stpncpy_length_le m.name len
      have h₂ := stpncpy_length_le m.descriptor (len - (stpncpy m.name len).length)
      have hfull : m.fullKey.length = m.size + 1 := by
        simp [fullKey, size, Nat.add_assoc]
      rw [length_append, length_cons, hfull] at htotal
      unfold size at htotal
      obtain ⟨h₃, h₄⟩ := append_inj hkey (by omega)
      rw [h₃] at h₄
      obtain ⟨hzero, hle⟩ := hname.mp h₃
      obtain ⟨hzero', hle'⟩ := hdescriptor.mp (cons.inj h₄).2
      refine ⟨hlen, ⟨hzero, hzero', ?_⟩, by rw [hkey, hfull]⟩
      unfold size
      omega
    · rintro ⟨-, ⟨hzero, hzero', hle⟩, rfl⟩
      unfold size at hle
      have h₁ := hname.mpr ⟨hzero, by omega⟩
      rw [h₁, hdescriptor.mpr ⟨hzero', by omega⟩]
      simp [fullKey, size, Nat.add_assoc]

/-- The keys of a sequence are full exactly if the methods fit one after the other. -/
theorem identifyAll_full_iff (methods : List NamedMethod) :
    identifyAll len methods = some (methods.map fullKey) ↔ Fits len methods := by
  induction methods generalizing len with
  | nil => exact ⟨fun _ => trivial, fun _ => rfl⟩
  | cons m ms ih =>
    rw [identifyAll, Option.bind_eq_some_iff, Fits]
    constructor
    · rintro ⟨⟨key, len'⟩, hkey, hrest⟩
      obtain ⟨keys, hkeys, hcons⟩ := Option.map_eq_some_iff.mp hrest
      rw [map_cons, cons.injEq] at hcons
      obtain ⟨rfl, rfl⟩ := hcons
      obtain ⟨hlen, hfits, rfl⟩ := identify_full_iff.mp hkey
      exact ⟨hlen, hfits, ih.mp hkeys⟩
    · rintro ⟨hlen, hfits, hrest⟩
      refine ⟨_, identify_full_iff.mpr ⟨hlen, hfits, rfl⟩, ?_⟩
      dsimp only
      rw [ih.mpr hrest]
      rfl

theorem fullKey_eq_iff : m.fullKey = m'.fullKey ↔
    (m.name = m'.name ∧ m.descriptor = m'.descriptor) ∨
    (∃ u, m'.name = m.name ++ 58 :: u ∧ m.descriptor = u ++ 58 :: m'.descriptor) ∨
    ∃ u, m.name = m'.name ++ 58 :: u ∧ m'.descriptor = u ++ 58 :: m.descriptor := by
  unfold fullKey
  rw [append_eq_append_iff]
  constructor
  · rintro (⟨c, hname, hrest⟩ | ⟨c, hname, hrest⟩)
    · cases c with
      | nil => exact .inl ⟨by simpa using hname.symm, by simpa using hrest⟩
      | cons x u =>
        rw [cons_append, cons.injEq] at hrest
        obtain ⟨rfl, hrest⟩ := hrest
        exact .inr (.inl ⟨u, hname, hrest⟩)
    · cases c with
      | nil => exact .inl ⟨by simpa using hname, by simpa using hrest.symm⟩
      | cons x u =>
        rw [cons_append, cons.injEq] at hrest
        obtain ⟨rfl, hrest⟩ := hrest
        exact .inr (.inr ⟨u, hname, hrest⟩)
  · rintro (⟨hname, hdescriptor⟩ | ⟨u, hname, hdescriptor⟩ | ⟨u, hname, hdescriptor⟩)
    · exact .inl ⟨[], by simp [hname], by simp [hdescriptor]⟩
    · exact .inl ⟨58 :: u, hname, by simp [hdescriptor]⟩
    · exact .inr ⟨58 :: u, hname, by simp [hdescriptor]⟩

theorem injective_iff (methods : List NamedMethod) :
    (∀ m ∈ methods, ∀ m' ∈ methods,
      m.fullKey = m'.fullKey ↔ m.name = m'.name ∧ m.descriptor = m'.descriptor) ↔
        Separate methods := by
  constructor
  · intro h m hm m' hm' u hname hdescriptor
    have hsame := (h m hm m' hm').mp (fullKey_eq_iff.mpr (.inr (.inl ⟨u, hname, hdescriptor⟩)))
    rw [← hsame.1] at hname
    have hlen := congrArg List.length hname
    rw [length_append, length_cons] at hlen
    omega
  · intro h m hm m' hm'
    rw [fullKey_eq_iff]
    constructor
    · rintro (hsame | ⟨u, hname, hdescriptor⟩ | ⟨u, hname, hdescriptor⟩)
      · exact hsame
      · exact absurd hdescriptor (h m hm m' hm' u hname)
      · exact absurd hdescriptor (h m' hm' m hm u hname)
    · exact .inl

theorem identified_iff (methods : List NamedMethod) :
    Identified methods (identifyAll 1024 methods) ↔ Fits 1024 methods ∧ Separate methods := by
  rw [← identifyAll_full_iff, ← injective_iff]
  exact ⟨fun h => ⟨h.full, h.injective⟩, fun h => ⟨h.1, h.2⟩⟩

end NamedMethod

open NamedMethod

/-- The keys of a class are those of its methods exactly if no method that is identified is longer
by two than the one before it, and no name reads as another one with the beginning of a
descriptor. -/
theorem keys_identified_iff (sources : List (List (List NamedMethod))) (dst : List NamedMethod) :
    (Identified (compared sources) (setupItablesKeys sources) ↔
      Fits 1024 (compared sources) ∧ Separate (compared sources)) ∧
    (Identified dst (mergeItableKeys dst) ↔ Fits 1024 dst ∧ Separate dst) :=
  ⟨identified_iff _, identified_iff _⟩

/-- `setup(I)V` and `setup(J)V`, each after an `a()V`. -/
theorem overloads_share_key :
    setupItablesKeys [[[⟨[97], [40, 41, 86], true⟩,
        ⟨[115, 101, 116, 117, 112], [40, 73, 41, 86], true⟩],
      [⟨[97], [40, 41, 86], true⟩, ⟨[115, 101, 116, 117, 112], [40, 74, 41, 86], true⟩]]] =
        some [[97, 58, 40, 41, 86], [115, 101, 116, 117, 112, 58], [97, 58, 40, 41, 86],
          [115, 101, 116, 117, 112, 58]] ∧
    ¬ Identified [⟨[97], [40, 41, 86], true⟩, ⟨[115, 101, 116, 117, 112], [40, 73, 41, 86], true⟩,
      ⟨[97], [40, 41, 86], true⟩, ⟨[115, 101, 116, 117, 112], [40, 74, 41, 86], true⟩]
        (setupItablesKeys [[[⟨[97], [40, 41, 86], true⟩,
          ⟨[115, 101, 116, 117, 112], [40, 73, 41, 86], true⟩], [⟨[97], [40, 41, 86], true⟩,
            ⟨[115, 101, 116, 117, 112], [40, 74, 41, 86], true⟩]]]) := by
  refine ⟨by decide, fun h => ?_⟩
  exact absurd h.full (by decide)

end TraceJvm
