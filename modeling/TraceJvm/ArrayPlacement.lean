import TraceJvm.ArrayAllocation

/-! Exactly when the creation of an array meets its contract: the sizes must not wrap. -/
namespace TraceJvm

open List Option VmHeap

/-- The array lies where it was reserved: all its elements within the bytes of the allocation, these
below the end of the used heap, zero, and apart from every other object. -/
structure Placed (c : Creation) : Prop where
  count : 0 ≤ c.count.toInt
  reserved : ∃ n rest, c.heap.objects = (c.start, n) :: rest ∧
    arrayDataOffset + c.count.toInt.toNat * c.size ≤ n ∧ c.start + n ≤ c.heap.used ∧
    ∀ o ∈ rest, o.1 + o.2 ≤ c.start ∨ c.start + n ≤ o.1
  used : c.heap.used ≤ c.heap.capacity
  length : load32 c.heap.bytes (c.start + arrayLengthOffset) = c.count.toInt.toNat
  zeroed : ∀ i < c.count.toInt.toNat * c.size, c.heap.bytes (c.start + arrayDataOffset + i) = 0

def Creation.ask (c : Creation) : Int32 × ℕ := (c.count, c.size)

/-- Either an exception, and the heap is as it was or as a collection leaves it, or the arrays that
were asked for in their places. -/
def PathRun.Meets (gc : Collector) (h : VmHeap) (asked : List (Int32 × ℕ)) (r : PathRun) : Prop :=
  match r.outcome with
  | .returned start => (r.created.map Creation.ask).reverse = asked ∧ (∀ c ∈ r.created, Placed c) ∧
      ∀ c, r.created = [c] → c.start = start
  | .negativeArraySize _ | .outOfMemory => r.heap = h ∨ r.heap = h.majorGc gc
  | .nullResult | .trapped => False

def arrayBytes (count : Int32) (size : ℕ) : ℕ :=
  (arrayDataOffset + count.toInt.toNat * size + 7) / 8 * 8

def wrappedBytes (count : Int32) (size : ℕ) : ℕ :=
  VmHeap.alignBytes ((arrayDataOffset + dataBytes count size) % sizeWord)

section Arithmetic

variable {count : Int32} {size : ℕ}

theorem dataBytes_of_nonneg (h : 0 ≤ count.toInt) (size : ℕ) :
    dataBytes count size = count.toInt.toNat * size % sizeWord := by
  obtain ⟨n, hn⟩ := Int.eq_ofNat_of_zero_le h
  rw [dataBytes, hn, Int.toNat_natCast, ← Int.natCast_mul, ← Int.natCast_emod, Int.toNat_natCast]

theorem wrappedBytes_eq (h : 0 ≤ count.toInt) (hfits : arrayBytes count size < sizeWord) :
    wrappedBytes count size = arrayBytes count size ∧
      dataBytes count size = count.toInt.toNat * size := by
  have hdata := dataBytes_of_nonneg h size
  unfold arrayBytes arrayDataOffset at hfits
  unfold wrappedBytes VmHeap.alignBytes arrayBytes arrayDataOffset
  generalize count.toInt.toNat * size = n at hdata hfits ⊢
  unfold sizeWord at hdata hfits ⊢
  omega

theorem arrayBytes_le (h : arrayDataOffset + count.toInt.toNat * size ≤ wrappedBytes count size) :
    arrayBytes count size ≤ wrappedBytes count size := by
  unfold wrappedBytes VmHeap.alignBytes at h ⊢
  unfold arrayBytes
  omega

end Arithmetic

/-! ### One array -/

namespace VmHeap

variable {gc : Collector} {h h₁ : VmHeap} {descriptor size : ℕ} {count : Int32}

theorem sound_majorGc (hs : h.Sound) : (h.majorGc gc).Sound := by
  have hused := hs.used
  refine ⟨?_, hs.capacity, hs.limit, gc.below h.collections h⟩
  show min (gc.live h.collections) h.used ≤ h.capacity
  omega

def placeArray (h : VmHeap) (descriptor size : ℕ) (count : Int32) : VmHeap :=
  { h with
    bytes := zeroBytes (store32 (store32 (store32
      (zeroBytes h.bytes h.used (wrappedBytes count size)) h.used 1) (h.used + 8) descriptor)
        (h.used + arrayLengthOffset) (dataBytes count 1)) (h.used + arrayDataOffset)
          (dataBytes count size)
    objects := (h.used, wrappedBytes count size) :: h.objects
    used := (h.used + wrappedBytes count size) % sizeWord }

/-- The places where the creation of an array may go wrong beyond the memory. -/
def reaches (h : VmHeap) (size : ℕ) (count : Int32) : Prop :=
  h.used + wrappedBytes count size ≤ h.limit ∧
    h.used + arrayDataOffset + dataBytes count size ≤ h.limit

inductive Creates (gc : Collector) (h : VmHeap) (descriptor size : ℕ) (count : Int32) :
    Made × VmHeap → Prop where
  | exhausted (hfirst : h.exceeds (wrappedBytes count size) = true)
      (hsecond : (h.majorGc gc).exceeds (wrappedBytes count size) = true) :
      Creates gc h descriptor size count (.exhausted, h.majorGc gc)
  | trapped (h₁ h' : VmHeap)
      (hplace : h₁ = h ∨ h₁ = h.majorGc gc ∧ h.exceeds (wrappedBytes count size) = true)
      (hfits : h₁.exceeds (wrappedBytes count size) = false) (hlimit : ¬ h₁.reaches size count) :
      Creates gc h descriptor size count (.trapped, h')
  | array (h₁ : VmHeap)
      (hplace : h₁ = h ∨ h₁ = h.majorGc gc ∧ h.exceeds (wrappedBytes count size) = true)
      (hfits : h₁.exceeds (wrappedBytes count size) = false) :
      Creates gc h descriptor size count
        (.array h₁.used, h₁.placeArray descriptor size count)

theorem createArray1D_cases (gc : Collector) (h : VmHeap) (descriptor size : ℕ) (count : Int32) :
    Creates gc h descriptor size count (h.createArray1D gc descriptor size count) := by
  have htake : ∀ h₁ : VmHeap,
      h.bumpAllocate gc ((arrayDataOffset + dataBytes count size) % sizeWord) =
        h₁.take (wrappedBytes count size) →
      (h₁ = h ∨ h₁ = h.majorGc gc ∧ h.exceeds (wrappedBytes count size) = true) →
      h₁.exceeds (wrappedBytes count size) = false →
      Creates gc h descriptor size count (h.createArray1D gc descriptor size count) := by
    intro h₁ hbump hplace hfits
    unfold createArray1D allocateObject
    rw [hbump, take]
    by_cases hlimit : h₁.limit < h₁.used + wrappedBytes count size
    · rw [if_pos hlimit]
      exact .trapped h₁ h₁ hplace hfits fun hreach => absurd hreach.1 (by omega)
    · rw [if_neg hlimit]
      dsimp only
      split
      · rename_i hdata
        exact .trapped h₁ _ hplace hfits fun hreach => absurd hreach.2 (by omega)
      · exact .array h₁ hplace hfits
  have hbump : h.bumpAllocate gc ((arrayDataOffset + dataBytes count size) % sizeWord) =
      if h.exceeds (wrappedBytes count size) then
        if (h.majorGc gc).exceeds (wrappedBytes count size) then (.exhausted, h.majorGc gc)
        else (h.majorGc gc).take (wrappedBytes count size)
      else h.take (wrappedBytes count size) := rfl
  cases hfirst : h.exceeds (wrappedBytes count size) with
  | false =>
    apply htake h _ (.inl rfl) hfirst
    rw [hbump, hfirst]
    rfl
  | true =>
    cases hsecond : (h.majorGc gc).exceeds (wrappedBytes count size) with
    | false =>
      apply htake (h.majorGc gc) _ (.inr ⟨rfl, hfirst⟩) hsecond
      rw [hbump, hfirst, hsecond]
      rfl
    | true =>
      have hnone : h.createArray1D gc descriptor size count = (.exhausted, h.majorGc gc) := by
        unfold createArray1D allocateObject
        rw [hbump, hfirst, hsecond]
        rfl
      rw [hnone]
      exact .exhausted hfirst hsecond

theorem load32_store32 (m : ℕ → UInt8) (a v : ℕ) : load32 (store32 m a v) a = v % sizeWord := by
  have hbyte : ∀ k < 4, (store32 m a v (a + k)).toNat = v / 256 ^ k % 256 := by
    intro k hk
    rw [store32, if_pos (by omega), Nat.add_sub_cancel_left, UInt8.toNat_ofNat']
  have h₀ := hbyte 0 (by omega)
  have h₁ := hbyte 1 (by omega)
  have h₂ := hbyte 2 (by omega)
  have h₃ := hbyte 3 (by omega)
  rw [Nat.add_zero] at h₀
  rw [load32, h₀, h₁, h₂, h₃, sizeWord]
  omega

theorem load32_zeroBytes {m : ℕ → UInt8} {a b n : ℕ} (hab : a + 4 ≤ b) :
    load32 (zeroBytes m b n) a = load32 m a := by
  have hbyte : ∀ k < 4, zeroBytes m b n (a + k) = m (a + k) := by
    intro k hk
    rw [zeroBytes, if_neg (by omega)]
  have h₀ := hbyte 0 (by omega)
  rw [Nat.add_zero] at h₀
  rw [load32, load32, h₀, hbyte 1 (by omega), hbyte 2 (by omega), hbyte 3 (by omega)]

theorem le_of_not_exceeds {n : ℕ} (hfits : h.exceeds n = false) (hwrap : h.used + n < sizeWord) :
    h.used + n ≤ h.capacity := by
  have hle := of_decide_eq_false hfits
  rw [Nat.mod_eq_of_lt hwrap] at hle
  omega

theorem placed_iff (descriptor : ℕ) (hs : h.Sound)
    (hfits : h.exceeds (wrappedBytes count size) = false) :
    Placed ⟨h.placeArray descriptor size count, h.used, count, size⟩ ↔
      0 ≤ count.toInt ∧ h.used + arrayBytes count size < sizeWord := by
  constructor
  · intro hp
    obtain ⟨n, rest, hobjects, hneeds, hbelow, -⟩ := hp.reserved
    cases hobjects
    refine ⟨hp.count, ?_⟩
    have hbytes : arrayBytes count size ≤ wrappedBytes count size := arrayBytes_le hneeds
    have hmod : (h.used + wrappedBytes count size) % sizeWord < sizeWord := Nat.mod_lt _ (by decide)
    have hend : h.used + wrappedBytes count size ≤
      (h.used + wrappedBytes count size) % sizeWord := hbelow
    omega
  · rintro ⟨hcount, hwrap⟩
    obtain ⟨hbytes, hdata⟩ := wrappedBytes_eq hcount (show arrayBytes count size < sizeWord by omega)
    have hend := le_of_not_exceeds hfits (by omega)
    have hmod : (h.used + wrappedBytes count size) % sizeWord = h.used + wrappedBytes count size :=
      Nat.mod_eq_of_lt (by omega)
    refine ⟨hcount, ⟨_, _, rfl, ?_, Nat.le_of_eq hmod.symm, fun o ho => .inl (hs.objects o ho)⟩,
      Nat.le_trans (Nat.le_of_eq hmod) hend, ?_, fun i hi => ?_⟩
    · show arrayDataOffset + count.toInt.toNat * size ≤ wrappedBytes count size
      rw [hbytes, arrayBytes]
      omega
    · have hsmall : count.toInt.toNat < sizeWord := by
        have hlt := count.toInt_lt
        unfold sizeWord
        omega
      show load32 (zeroBytes _ (h.used + arrayDataOffset) _) (h.used + arrayLengthOffset) =
        count.toInt.toNat
      rw [load32_zeroBytes (by unfold arrayLengthOffset arrayDataOffset; omega), load32_store32,
        dataBytes_of_nonneg hcount, Nat.mul_one, Nat.mod_mod, Nat.mod_eq_of_lt hsmall]
    · have hi' : i < count.toInt.toNat * size := hi
      show zeroBytes _ (h.used + arrayDataOffset) (dataBytes count size)
        (h.used + arrayDataOffset + i) = 0
      rw [zeroBytes, if_pos (by omega)]

theorem reaches_of_fits (hs : h.Sound) (hfits : h.exceeds (wrappedBytes count size) = false)
    (hcount : 0 ≤ count.toInt) (hwrap : h.used + arrayBytes count size < sizeWord) :
    h.reaches size count := by
  obtain ⟨hbytes, hdata⟩ := wrappedBytes_eq hcount (show arrayBytes count size < sizeWord by omega)
  have hend := le_of_not_exceeds hfits (by omega)
  have hlimit := hs.limit
  have hneeds : arrayDataOffset + count.toInt.toNat * size ≤ arrayBytes count size := by
    unfold arrayBytes
    omega
  unfold reaches
  rw [hdata]
  omega

theorem used_of_place (hs : h.Sound) (hcount : 0 ≤ count.toInt)
    (hplace : h₁ = h ∨ h₁ = h.majorGc gc ∧ h.exceeds (wrappedBytes count size) = true) :
    h₁.used + arrayBytes count size < sizeWord ↔ h.used + arrayBytes count size < sizeWord := by
  rcases hplace with rfl | ⟨rfl, hexceeds⟩
  · rfl
  · have hused : (h.majorGc gc).used ≤ h.used := Nat.min_le_right _ _
    refine ⟨fun hwrap => ?_, fun hwrap => by omega⟩
    obtain ⟨hbytes, -⟩ := wrappedBytes_eq hcount (show arrayBytes count size < sizeWord by omega)
    by_contra hover
    have hlt := of_decide_eq_true hexceeds
    have hcapacity := hs.capacity
    have hle := hs.used
    rw [hbytes, Nat.mod_eq_sub_mod (by omega), Nat.mod_eq_of_lt (by omega)] at hlt
    omega

theorem sound_of_place (hs : h.Sound)
    (hplace : h₁ = h ∨ h₁ = h.majorGc gc ∧ h.exceeds (wrappedBytes count size) = true) :
    h₁.Sound := by
  rcases hplace with rfl | ⟨rfl, -⟩
  · exact hs
  · exact sound_majorGc hs

end VmHeap

def FitsOne (gc : Collector) (h : VmHeap) (kind : ComponentKind) (count : Int32) : Prop :=
  0 ≤ count.toInt ∧ h.used + arrayBytes count kind.size < sizeWord ∨
    h.exceeds (wrappedBytes count kind.size) = true ∧
      (h.majorGc gc).exceeds (wrappedBytes count kind.size) = true

variable {gc : Collector} {h : VmHeap}

theorem oneArray_meets_iff (hs : h.Sound) (descriptor : ℕ) (kind : ComponentKind) (count : Int32) :
    (oneArray gc h descriptor kind count).Meets gc h [(count, kind.size)] ↔
      FitsOne gc h kind count := by
  have hcases := createArray1D_cases gc h descriptor kind.size count
  unfold oneArray
  generalize h.createArray1D gc descriptor kind.size count = result at hcases
  cases hcases with
  | exhausted hfirst hsecond => exact iff_of_true (.inr rfl) (.inr ⟨hfirst, hsecond⟩)
  | trapped h₁ h' hplace hfits hlimit =>
    refine iff_of_false id ?_
    rintro (⟨hcount, hwrap⟩ | ⟨hfirst, hsecond⟩)
    · apply hlimit
      exact reaches_of_fits (sound_of_place hs hplace) hfits hcount
        ((used_of_place hs hcount hplace).mpr hwrap)
    · rcases hplace with rfl | ⟨rfl, -⟩
      · rw [hfirst] at hfits
        cases hfits
      · rw [hsecond] at hfits
        cases hfits
  | array h₁ hplace hfits =>
    have hplaced := placed_iff descriptor (sound_of_place hs hplace) hfits
    have hmeets : PathRun.Meets gc h [(count, kind.size)] ⟨.returned h₁.used,
        h₁.placeArray descriptor kind.size count,
          [⟨h₁.placeArray descriptor kind.size count, h₁.used, count, kind.size⟩]⟩ ↔
          Placed ⟨h₁.placeArray descriptor kind.size count, h₁.used, count, kind.size⟩ := by
      constructor
      · rintro ⟨-, hp, -⟩
        exact hp _ mem_cons_self
      · intro hp
        refine ⟨rfl, forall_mem_singleton.mpr hp, ?_⟩
        rintro c ⟨⟩
        rfl
    refine hmeets.trans (hplaced.trans ?_)
    constructor
    · rintro ⟨hcount, hwrap⟩
      exact .inl ⟨hcount, (used_of_place hs hcount hplace).mp hwrap⟩
    · rintro (⟨hcount, hwrap⟩ | ⟨hfirst, hsecond⟩)
      · exact ⟨hcount, (used_of_place hs hcount hplace).mpr hwrap⟩
      · rcases hplace with rfl | ⟨rfl, -⟩
        · rw [hfirst] at hfits
          cases hfits
        · rw [hsecond] at hfits
          cases hfits

theorem checkedArray_meets_iff (hs : h.Sound) (descriptor : ℕ)
    (kind : ComponentKind) (count : Int32) :
    (checkedArray gc h descriptor kind count).Meets gc h [(count, kind.size)] ↔
      count < 0 ∨ FitsOne gc h kind count := by
  unfold checkedArray
  split
  · rename_i hneg
    exact iff_of_true (.inl rfl) (.inl hneg)
  · rename_i hneg
    rw [oneArray_meets_iff hs, or_iff_right hneg]

theorem copyElements_meets_iff {asked : List (Int32 × ℕ)}
    (r : PathRun) (kind : ComponentKind) (count : Int32) (source : ℕ → UInt8) :
    (copyElements r kind count source).Meets gc h asked ↔ r.Meets gc h asked := by
  obtain ⟨outcome, heap, created⟩ := r
  cases outcome <;> rfl

/-! ### Nested arrays -/

/-- One array of `n` bytes: the used bytes and the number of collections after it. -/
def fitOne (capacity : ℕ) (live : ℕ → ℕ) (at_ : ℕ × ℕ) (n : ℕ) : Option (ℕ × ℕ) :=
  if at_.1 + n ≤ capacity then some (at_.1 + n, at_.2)
  else if at_.1 + n < sizeWord ∧ min (live at_.2) at_.1 + n ≤ capacity then
    some (min (live at_.2) at_.1 + n, at_.2 + 1)
  else none

def fitAll (capacity : ℕ) (live : ℕ → ℕ) (at_ : ℕ × ℕ) : List ℕ → Option (ℕ × ℕ)
  | [] => some at_
  | n :: ns => (fitOne capacity live at_ n).bind fun next => fitAll capacity live next ns

theorem fitAll_append (capacity : ℕ) (live : ℕ → ℕ) (at_ : ℕ × ℕ) (ns ms : List ℕ) :
    fitAll capacity live at_ (ns ++ ms) =
      (fitAll capacity live at_ ns).bind fun next => fitAll capacity live next ms := by
  induction ns generalizing at_ with
  | nil => rfl
  | cons n ns ih =>
    rw [cons_append, fitAll, fitAll, bind_assoc]
    exact congrArg _ (funext fun next => ih next)

/-- The arrays that `CreateArray` is asked for, in order. -/
def nestArrays (kind : ComponentKind) (first : Int32) : List Int32 → List (Int32 × ℕ)
  | [] => [(first, kind.size)]
  | second :: rest => (first, ComponentKind.reference.size) ::
      (List.replicate first.toInt.toNat (nestArrays kind second rest)).flatten

def askedBytes (asked : List (Int32 × ℕ)) : List ℕ := asked.map fun a => arrayBytes a.1 a.2

def VmHeap.shape (h : VmHeap) : List Bool := h.handles.map Option.isSome

def VmHeap.mark (h : VmHeap) : ℕ × ℕ := (h.used, h.collections)

section Nested

variable {gc : Collector} {h h' : VmHeap} {descriptor size start : ℕ} {count : Int32}

theorem shape_majorGc : (h.majorGc gc).shape = h.shape := by
  unfold VmHeap.shape VmHeap.majorGc
  rw [List.map_map]
  apply map_congr_left
  intro x hx
  exact isSome_map

theorem createArray1D_shape
    (hmade : (h.createArray1D gc descriptor size count).1 ≠ .trapped) :
    (h.createArray1D gc descriptor size count).2.shape = h.shape := by
  have hcases := createArray1D_cases gc h descriptor size count
  generalize h.createArray1D gc descriptor size count = result at hcases hmade
  cases hcases with
  | exhausted hfirst hsecond => exact shape_majorGc
  | trapped h₁ h' hplace hfits hlimit => exact absurd rfl hmade
  | array h₁ hplace hfits =>
    rcases hplace with rfl | ⟨rfl, -⟩
    · rfl
    · exact shape_majorGc

theorem exceeds_iff {n : ℕ} (hwrap : h.used + n < sizeWord) :
    h.exceeds n = true ↔ h.capacity < h.used + n := by
  unfold VmHeap.exceeds
  rw [Nat.mod_eq_of_lt hwrap, decide_eq_true_iff]

theorem fitOne_eq_some_iff {capacity n : ℕ} {live : ℕ → ℕ} {at_ next : ℕ × ℕ}
    (hcapacity : capacity < sizeWord) :
    fitOne capacity live at_ n = some next ↔ at_.1 + n < sizeWord ∧
      (at_.1 + n ≤ capacity ∧ next = (at_.1 + n, at_.2) ∨
        capacity < at_.1 + n ∧ min (live at_.2) at_.1 + n ≤ capacity ∧
          next = (min (live at_.2) at_.1 + n, at_.2 + 1)) := by
  unfold fitOne
  split
  · rename_i hle
    rw [some.injEq]
    constructor
    · intro heq
      exact ⟨by omega, .inl ⟨hle, heq.symm⟩⟩
    · rintro ⟨-, ⟨-, heq⟩ | ⟨hlt, -⟩⟩
      · exact heq.symm
      · omega
  · rename_i hnot
    rw [ite_none_right_eq_some, some.injEq]
    constructor
    · rintro ⟨⟨hwrap, hle⟩, heq⟩
      exact ⟨hwrap, .inr ⟨by omega, hle, heq.symm⟩⟩
    · rintro ⟨hwrap, ⟨hle, -⟩ | ⟨-, hle, heq⟩⟩
      · exact absurd hle hnot
      · exact ⟨⟨hwrap, hle⟩, heq.symm⟩

/-- An array that fits is created in its place. -/
theorem createArray1D_fit (hs : h.Sound) (hcount : 0 ≤ count.toInt) {next : ℕ × ℕ}
    (hfit : fitOne h.capacity gc.live h.mark (arrayBytes count size) = some next) :
    ∃ start h', h.createArray1D gc descriptor size count = (.array start, h') ∧
      Placed ⟨h', start, count, size⟩ ∧ h'.Sound ∧ h'.mark = next ∧ h'.capacity = h.capacity := by
  obtain ⟨hwrap, hnext⟩ := (fitOne_eq_some_iff hs.capacity).mp hfit
  have hwrap : h.used + arrayBytes count size < sizeWord := hwrap
  obtain ⟨hbytes, -⟩ := wrappedBytes_eq hcount (show arrayBytes count size < sizeWord by omega)
  have hwrapGc : (h.majorGc gc).used + arrayBytes count size < sizeWord := by
    have hle : (h.majorGc gc).used ≤ h.used := Nat.min_le_right _ _
    omega
  have hcases := createArray1D_cases gc h descriptor size count
  generalize h.createArray1D gc descriptor size count = result at hcases
  cases hcases with
  | exhausted hfirst hsecond =>
    rw [hbytes] at hfirst hsecond
    have hfirst : h.capacity < h.used + arrayBytes count size := (exceeds_iff hwrap).mp hfirst
    have hsecond : h.capacity < min (gc.live h.collections) h.used + arrayBytes count size :=
      (exceeds_iff hwrapGc).mp hsecond
    rcases hnext with ⟨hle, -⟩ | ⟨-, hle, -⟩
    · exact absurd hle (Nat.not_le_of_lt hfirst)
    · exact absurd hle (Nat.not_le_of_lt hsecond)
  | trapped h₁ h' hplace hfits hlimit =>
    apply absurd _ hlimit
    exact reaches_of_fits (sound_of_place hs hplace) hfits hcount
      ((used_of_place hs hcount hplace).mpr hwrap)
  | array h₁ hplace hfits =>
    have hs₁ := sound_of_place hs hplace
    have hwrap₁ := (used_of_place hs hcount hplace).mpr hwrap
    have hend : h₁.used + wrappedBytes count size ≤ h₁.capacity :=
      le_of_not_exceeds hfits (by omega)
    have hused : (h₁.placeArray descriptor size count).used =
        h₁.used + arrayBytes count size := by
      rw [← hbytes]
      exact Nat.mod_eq_of_lt (by omega)
    refine ⟨_, _, rfl, (placed_iff descriptor hs₁ hfits).mpr ⟨hcount, hwrap₁⟩,
      ⟨?_, hs₁.capacity, hs₁.limit, ?_⟩, ?_, ?_⟩
    · rw [hused, ← hbytes]
      exact hend
    · intro o ho
      rw [hused]
      rcases mem_cons.mp ho with rfl | ho
      · exact Nat.le_of_eq (by rw [hbytes])
      · have hbelow := hs₁.objects o ho
        omega
    · rw [hbytes] at hend
      rw [VmHeap.mark, hused]
      rcases hplace with rfl | ⟨rfl, hexceeds⟩
      · rcases hnext with ⟨-, heq⟩ | ⟨hlt, -⟩
        · exact heq.symm
        · exact absurd hend (Nat.not_le_of_lt hlt)
      · rw [hbytes] at hexceeds
        rcases hnext with ⟨hle, -⟩ | ⟨-, -, heq⟩
        · exact absurd hle (Nat.not_le_of_lt ((exceeds_iff hwrap).mp hexceeds))
        · exact heq.symm
    · rcases hplace with rfl | ⟨rfl, -⟩ <;> rfl

/-- One that does not fit is not. -/
theorem createArray1D_unfit (hs : h.Sound) (hcount : 0 ≤ count.toInt)
    (hfit : fitOne h.capacity gc.live h.mark (arrayBytes count size) = none)
    (hmade : h.createArray1D gc descriptor size count = (.array start, h')) :
    ¬ Placed ⟨h', start, count, size⟩ := by
  intro hp
  have hcases := createArray1D_cases gc h descriptor size count
  rw [hmade] at hcases
  cases hcases with
  | array h₁ hplace hfits =>
    have hwrap₁ := ((placed_iff descriptor (sound_of_place hs hplace) hfits).mp hp).2
    have hwrap := (used_of_place hs hcount hplace).mp hwrap₁
    obtain ⟨hbytes, -⟩ := wrappedBytes_eq hcount (show arrayBytes count size < sizeWord by omega)
    have hend := le_of_not_exceeds hfits (by omega)
    rw [hbytes] at hend
    have hnone : ∀ next, fitOne h.capacity gc.live h.mark (arrayBytes count size) ≠ some next := by
      rw [hfit]
      exact nofun
    rcases hplace with rfl | ⟨rfl, hexceeds⟩
    · exact hnone _ ((fitOne_eq_some_iff hs.capacity).mpr ⟨hwrap, .inl ⟨hend, rfl⟩⟩)
    · rw [hbytes] at hexceeds
      have hlt := (exceeds_iff hwrap).mp hexceeds
      exact hnone _ ((fitOne_eq_some_iff hs.capacity).mpr ⟨hwrap, .inr ⟨hlt, hend, rfl⟩⟩)

end Nested

/-- A part of `CreateArray` that is asked for these arrays: all are created in their places if they
fit one after another, and one out of its place if they do not. -/
structure Builds (gc : Collector) (sub : Nest → Made × Nest) (asked : List (Int32 × ℕ)) : Prop where
  fit : ∀ s next, s.heap.Sound →
    fitAll s.heap.capacity gc.live s.heap.mark (askedBytes asked) = some next → ∃ start s' new,
      sub s = (.array start, s') ∧ s'.heap.Sound ∧ s'.heap.mark = next ∧
        s'.heap.capacity = s.heap.capacity ∧ s'.created = new ++ s.created ∧
          (new.map Creation.ask).reverse = asked ∧ ∀ c ∈ new, Placed c
  unfit : ∀ s start s', s.heap.Sound →
    fitAll s.heap.capacity gc.live s.heap.mark (askedBytes asked) = none →
      sub s = (.array start, s') → ∃ c ∈ s'.created, ¬ Placed c
  shape : ∀ s, (sub s).1 ≠ .trapped → (sub s).2.heap.shape = s.heap.shape
  grows : ∀ s, s.created ⊆ (sub s).2.created

theorem created_append {new₁ new₂ : List Creation} {asked₁ asked₂ : List (Int32 × ℕ)}
    (h₁ : (new₁.map Creation.ask).reverse = asked₁) (h₂ : (new₂.map Creation.ask).reverse = asked₂)
    (hplaced₁ : ∀ c ∈ new₁, Placed c) (hplaced₂ : ∀ c ∈ new₂, Placed c) :
    ((new₂ ++ new₁).map Creation.ask).reverse = asked₁ ++ asked₂ ∧
      ∀ c ∈ new₂ ++ new₁, Placed c := by
  constructor
  · rw [map_append, reverse_append, h₁, h₂]
  · intro c hc
    rcases mem_append.mp hc with hc | hc
    · exact hplaced₂ c hc
    · exact hplaced₁ c hc

theorem askedBytes_append (asked₁ asked₂ : List (Int32 × ℕ)) :
    askedBytes (asked₁ ++ asked₂) = askedBytes asked₁ ++ askedBytes asked₂ :=
  map_append

theorem create_grows (gc : Collector) (descriptor size : ℕ) (count : Int32) (s : Nest) :
    s.created ⊆ (s.create gc descriptor size count).2.created := by
  unfold Nest.create
  split
  · exact subset_cons_self _ _
  · exact fun _ hc => hc

theorem create_heap (gc : Collector) (descriptor size : ℕ) (count : Int32) (s : Nest) :
    (s.create gc descriptor size count).1 = (s.heap.createArray1D gc descriptor size count).1 ∧
      (s.create gc descriptor size count).2.heap =
        (s.heap.createArray1D gc descriptor size count).2 := by
  unfold Nest.create
  split
  · rename_i heq
    rw [heq]
    exact ⟨rfl, rfl⟩
  · rename_i heq
    rw [heq]
    exact ⟨rfl, rfl⟩

theorem builds_create (gc : Collector) (descriptor size : ℕ) {count : Int32}
    (hcount : 0 ≤ count.toInt) :
    Builds gc (Nest.create gc descriptor size count) [(count, size)] := by
  have hone : ∀ capacity (at_ : ℕ × ℕ), fitAll capacity gc.live at_ (askedBytes [(count, size)]) =
      fitOne capacity gc.live at_ (arrayBytes count size) := by
    intro capacity at_
    exact bind_fun_some _
  refine ⟨fun s next hs hfit => ?_, fun s start s' hs hfit hmade => ?_, fun s hmade => ?_,
    create_grows gc descriptor size count⟩
  · rw [hone] at hfit
    obtain ⟨start, h', heq, hp, hs', hmark, hcapacity⟩ := createArray1D_fit hs hcount hfit
    refine ⟨start, ⟨h', ⟨h', start, count, size⟩ :: s.created⟩, [⟨h', start, count, size⟩], ?_, hs',
      hmark, hcapacity, rfl, rfl, forall_mem_singleton.mpr hp⟩
    rw [Nest.create, heq]
  · rw [hone] at hfit
    unfold Nest.create at hmade
    split at hmade
    · rename_i start' h' heq
      cases hmade
      exact ⟨_, mem_cons_self, createArray1D_unfit hs hcount hfit heq⟩
    · rename_i hfailed heq
      cases hmade
      exact (hfailed _ rfl).elim
  · obtain ⟨hfirst, hheap⟩ := create_heap gc descriptor size count s
    rw [hfirst] at hmade
    rw [hheap]
    exact createArray1D_shape hmade

theorem storeReference_keeps (h : VmHeap) (i subarray : ℕ) :
    (h.storeReference i subarray).handles = h.handles ∧
      (h.storeReference i subarray).mark = h.mark ∧
        (h.storeReference i subarray).capacity = h.capacity ∧
          (h.Sound → (h.storeReference i subarray).Sound) := by
  unfold VmHeap.storeReference
  split
  · exact ⟨rfl, rfl, rfl, fun hs => { hs with }⟩
  · exact ⟨rfl, rfl, rfl, id⟩

/-- The loop over the elements. -/
theorem builds_fillArray {sub : Nest → Made × Nest} {asked : List (Int32 × ℕ)}
    (hsub : Builds gc sub asked) (n i : ℕ) :
    Builds gc (fun s => fillArray sub s i n) (List.replicate n asked).flatten := by
  induction n generalizing i with
  | zero =>
    refine ⟨fun s next hs hfit => ?_, fun s start s' hs hfit hmade => ?_, fun s _ => rfl,
      fun s => fun _ hc => hc⟩
    · cases hfit
      exact ⟨0, s, [], rfl, hs, rfl, rfl, rfl, rfl, nofun⟩
    · cases hfit
  | succ n ih =>
    rw [replicate_succ, flatten_cons]
    refine ⟨fun s next hs hfit => ?_, fun s start s' hs hfit hmade => ?_, fun s hmade => ?_,
      fun s => ?_⟩
    · rw [askedBytes_append, fitAll_append, bind_eq_some_iff] at hfit
      obtain ⟨mid, hfirst, hrest⟩ := hfit
      obtain ⟨start, s₁, new₁, heq, hs₁, hmark, hcapacity, hnew₁, hasked₁, hplaced₁⟩ :=
        hsub.fit s mid hs hfirst
      obtain ⟨-, hmark', hcapacity', hsound⟩ := storeReference_keeps s₁.heap i start
      rw [← hcapacity, ← hcapacity', ← hmark, ← hmark'] at hrest
      obtain ⟨start', s₂, new₂, heq', hs₂, hmark₂, hcapacity₂, hnew₂, hasked₂, hplaced₂⟩ :=
        (ih (i + 1)).fit ⟨s₁.heap.storeReference i start, s₁.created⟩ next (hsound hs₁) hrest
      refine ⟨start', s₂, new₂ ++ new₁, ?_, hs₂, hmark₂, ?_, ?_,
        created_append hasked₁ hasked₂ hplaced₁ hplaced₂⟩
      · show fillArray sub s i (n + 1) = _
        rw [fillArray, heq]
        exact heq'
      · rw [hcapacity₂, hcapacity', hcapacity]
      · rw [hnew₂, hnew₁, append_assoc]
    · rw [askedBytes_append, fitAll_append] at hfit
      have hmade : fillArray sub s i (n + 1) = _ := hmade
      rw [fillArray] at hmade
      split at hmade
      · rename_i start₁ s₁ heq
        cases hfirst : fitAll s.heap.capacity gc.live s.heap.mark (askedBytes asked) with
        | none =>
          obtain ⟨c, hc, hbad⟩ := hsub.unfit s start₁ s₁ hs hfirst heq
          have hgrows := (ih (i + 1)).grows ⟨s₁.heap.storeReference i start₁, s₁.created⟩
          have hgrows : s₁.created ⊆ (fillArray sub _ (i + 1) n).2.created := hgrows
          rw [hmade] at hgrows
          exact ⟨c, hgrows hc, hbad⟩
        | some mid =>
          obtain ⟨start₂, s₂, -, heq', hs₁, hmark, hcapacity, -⟩ := hsub.fit s mid hs hfirst
          rw [heq] at heq'
          cases heq'
          obtain ⟨-, hmark', hcapacity', hsound⟩ := storeReference_keeps s₁.heap i start₁
          rw [hfirst, bind_some, ← hcapacity, ← hcapacity', ← hmark, ← hmark'] at hfit
          exact (ih (i + 1)).unfit ⟨s₁.heap.storeReference i start₁, s₁.created⟩ start s'
            (hsound hs₁) hfit hmade
      · rename_i hfailed
        exact (hfailed start s' hmade).elim
    · have hmade : (fillArray sub s i (n + 1)).1 ≠ .trapped := hmade
      show (fillArray sub s i (n + 1)).2.heap.shape = _
      have hfirst := hsub.shape s
      rw [fillArray] at hmade ⊢
      split at hmade
      · rename_i start₁ s₁ heq
        rw [heq] at hfirst
        have hrest := (ih (i + 1)).shape ⟨s₁.heap.storeReference i start₁, s₁.created⟩ hmade
        refine hrest.trans (Eq.trans ?_ (hfirst nofun))
        rw [VmHeap.shape, VmHeap.shape, (storeReference_keeps s₁.heap i start₁).1]
      · exact hfirst hmade
    · show s.created ⊆ (fillArray sub s i (n + 1)).2.created
      have hfirst := hsub.grows s
      rw [fillArray]
      split
      · rename_i start₁ s₁ heq
        rw [heq] at hfirst
        intro c hc
        exact (ih (i + 1)).grows ⟨s₁.heap.storeReference i start₁, s₁.created⟩ (hfirst hc)
      · exact hfirst

section Release

variable {r : Made × Nest} {s : Nest} {arr : Option ℕ} {present : Bool} {rest : List Bool}

theorem hold_sound (hs : s.heap.Sound) : (s.hold arr).heap.Sound :=
  { hs with }

theorem release_created (r : Made × Nest) : (Nest.release r).2.created = r.2.created := by
  unfold Nest.release
  split <;> rfl

theorem release_ne_trapped (hr : (Nest.release r).1 ≠ .trapped) : r.1 ≠ .trapped := by
  obtain ⟨made, s⟩ := r
  rintro (rfl : made = .trapped)
  exact hr rfl

theorem release_shape (hshape : r.2.heap.shape = present :: rest) :
    (Nest.release r).2.heap.shape = rest := by
  have htail : r.2.heap.dropHandle.2.shape = rest := by
    have htail := congrArg List.tail hshape
    rw [VmHeap.shape, ← map_tail] at htail
    exact htail
  unfold Nest.release
  split <;> exact htail

theorem dropHandle_isSome {h : VmHeap} (hshape : h.shape = present :: rest) :
    h.dropHandle.1.isSome = present := by
  obtain ⟨x, xs, heq, hx, -⟩ := map_eq_cons_iff.mp hshape
  rw [VmHeap.dropHandle, heq]
  exact hx

theorem release_array {i : ℕ} (hshape : s.heap.shape = true :: rest) :
    ∃ start, Nest.release (.array i, s) =
      (.array start, { s with heap := s.heap.dropHandle.2 }) := by
  obtain ⟨start, hstart⟩ := isSome_iff_exists.mp (dropHandle_isSome hshape)
  exact ⟨start, by rw [Nest.release, hstart]⟩

theorem array_of_release {start : ℕ} {s' : Nest}
    (hshape : r.1 ≠ .trapped → r.2.heap.shape = present :: rest)
    (hr : Nest.release r = (.array start, s')) :
    present = true ∧ ∃ i, r.1 = .array i := by
  obtain ⟨made, s⟩ := r
  cases made with
  | array i =>
    refine ⟨?_, i, rfl⟩
    have hsome := dropHandle_isSome (hshape nofun)
    cases hdrop : s.heap.dropHandle.1 with
    | some start' =>
      rw [hdrop] at hsome
      exact hsome.symm
    | none =>
      rw [Nest.release, hdrop] at hr
      cases hr
  | exhausted => cases hr
  | trapped => cases hr

end Release

/-- `CreateArray` of counts that are not negative. -/
theorem builds_createArray (gc : Collector) (descriptor : ℕ) (kind : ComponentKind) (first : Int32)
    (rest : List Int32) (hall : ∀ n ∈ first :: rest, 0 ≤ n.toInt) :
    Builds gc (createArray gc descriptor kind first rest) (nestArrays kind first rest) := by
  induction rest generalizing first with
  | nil => exact builds_create gc descriptor kind.size (hall first mem_cons_self)
  | cons second rest ih =>
    have houter := builds_create gc descriptor ComponentKind.reference.size
      (hall first mem_cons_self)
    have hfill := builds_fillArray (ih second fun n hn => hall n (mem_cons_of_mem _ hn))
      first.toInt.toNat 0
    have hsplit : nestArrays kind first (second :: rest) =
      [(first, ComponentKind.reference.size)] ++
        (List.replicate first.toInt.toNat (nestArrays kind second rest)).flatten := rfl
    rw [hsplit]
    refine ⟨fun s next hs hfit => ?_, fun s start s' hs hfit hmade => ?_, fun s hmade => ?_,
      fun s => ?_⟩
    · rw [askedBytes_append, fitAll_append, bind_eq_some_iff] at hfit
      obtain ⟨mid, hfirst, hrest⟩ := hfit
      obtain ⟨start, s₁, new₁, heq, hs₁, hmark, hcapacity, hnew₁, hasked₁, hplaced₁⟩ :=
        houter.fit s mid hs hfirst
      rw [← hcapacity, ← hmark] at hrest
      obtain ⟨i, s₂, new₂, heq₂, hs₂, hmark₂, hcapacity₂, hnew₂, hasked₂, hplaced₂⟩ :=
        hfill.fit (s₁.hold (some start)) next (hold_sound hs₁) hrest
      have hshape := hfill.shape (s₁.hold (some start))
      rw [heq₂] at hshape
      have hshape : s₂.heap.shape = true :: s₁.heap.shape := hshape nofun
      obtain ⟨result, hresult⟩ := release_array (i := i) hshape
      refine ⟨result, { s₂ with heap := s₂.heap.dropHandle.2 }, new₂ ++ new₁, ?_,
        { hs₂ with }, hmark₂, hcapacity₂.trans hcapacity, ?_,
        created_append hasked₁ hasked₂ hplaced₁ hplaced₂⟩
      · rw [createArray, heq, ← hresult]
        exact congrArg Nest.release heq₂
      · rw [append_assoc, ← hnew₁]
        exact hnew₂
    · rw [askedBytes_append, fitAll_append] at hfit
      rw [createArray] at hmade
      split at hmade
      · rename_i start₁ s₁ heq
        have hcreated := release_created (fillArray (createArray gc descriptor kind second rest)
          (s₁.hold (some start₁)) 0 first.toInt.toNat)
        rw [show Nest.release _ = _ from hmade] at hcreated
        rw [show s'.created = _ from hcreated]
        cases hfirst : fitAll s.heap.capacity gc.live s.heap.mark
            (askedBytes [(first, ComponentKind.reference.size)]) with
        | none =>
          obtain ⟨c, hc, hbad⟩ := houter.unfit s start₁ s₁ hs hfirst heq
          exact ⟨c, hfill.grows (s₁.hold (some start₁)) hc, hbad⟩
        | some mid =>
          obtain ⟨start₂, s₂, -, heq', hs₁, hmark, hcapacity, -⟩ := houter.fit s mid hs hfirst
          rw [heq] at heq'
          cases heq'
          rw [hfirst, bind_some, ← hcapacity, ← hmark] at hfit
          obtain ⟨-, i, hi⟩ := array_of_release (hfill.shape (s₁.hold (some start₁))) hmade
          exact hfill.unfit (s₁.hold (some start₁)) i _ (hold_sound hs₁) hfit (Prod.ext hi rfl)
      · rename_i s₁ heq
        obtain ⟨hsome, -⟩ := array_of_release (hfill.shape (s₁.hold none)) hmade
        cases hsome
      · cases hmade
    · have hshape := houter.shape s
      rw [createArray] at hmade ⊢
      split at hmade
      · rename_i start₁ s₁ heq
        rw [heq] at hshape
        rw [← hshape nofun]
        exact release_shape (hfill.shape (s₁.hold (some start₁)) (release_ne_trapped hmade))
      · rename_i s₁ heq
        rw [heq] at hshape
        rw [← hshape nofun]
        exact release_shape (hfill.shape (s₁.hold none) (release_ne_trapped hmade))
      · exact absurd rfl hmade
    · have hgrows := houter.grows s
      rw [createArray]
      split
      · rename_i start₁ s₁ heq
        rw [heq] at hgrows
        rw [release_created]
        exact fun c hc => hfill.grows (s₁.hold (some start₁)) (hgrows hc)
      · rename_i s₁ heq
        rw [heq] at hgrows
        rw [release_created]
        exact fun c hc => hfill.grows (s₁.hold none) (hgrows hc)
      · rename_i s₁ heq
        rw [heq] at hgrows
        exact hgrows

theorem nestArrays_ne_nil (kind : ComponentKind) (first : Int32) (rest : List Int32) :
    nestArrays kind first rest ≠ [] := by
  cases rest <;> exact cons_ne_nil _ _

/-- A nest of one array is where its array is. -/
theorem createArray_start {descriptor start : ℕ}
    {kind : ComponentKind} {first : Int32} {rest : List Int32} {s : Nest} {c : Creation}
    (hmade : createArray gc descriptor kind first rest ⟨h, []⟩ = (.array start, s))
    (hasked : (s.created.map Creation.ask).reverse = nestArrays kind first rest)
    (hone : s.created = [c]) : c.start = start := by
  have hcreate : ∀ size s', Nest.create gc descriptor size first ⟨h, []⟩ = (.array start, s') →
      s'.created = [c] → c.start = start := by
    intro size s' heq hcreated
    unfold Nest.create at heq
    split at heq
    · cases heq
      cases hcreated
      rfl
    · cases heq
      cases hcreated
  cases rest with
  | nil => exact hcreate _ _ hmade hone
  | cons second rest =>
    have hflat : (List.replicate first.toInt.toNat (nestArrays kind second rest)).flatten = [] := by
      rw [hone] at hasked
      exact (cons.inj hasked).2.symm
    have hzero : first.toInt.toNat = 0 := by
      cases hn : first.toInt.toNat with
      | zero => rfl
      | succ n =>
        rw [hn, replicate_succ, flatten_cons, append_eq_nil_iff] at hflat
        exact absurd hflat.1 (nestArrays_ne_nil kind second rest)
    rw [createArray, hzero] at hmade
    split at hmade
    · rename_i start₁ s₁ heq
      cases hmade
      exact hcreate _ _ heq hone
    · cases hmade
    · cases hmade

/-- Nested arrays are created in their places exactly if they fit one after another. -/
theorem multiArray_meets_iff (hs : h.Sound) (descriptor : ℕ)
    (kind : ComponentKind) (first : Int32) (rest : List Int32) :
    (multiArray gc h descriptor kind first rest).Meets gc h (nestArrays kind first rest) ↔
      (∃ n ∈ first :: rest, n < 0) ∨
        (fitAll h.capacity gc.live h.mark (askedBytes (nestArrays kind first rest))).isSome := by
  unfold multiArray
  cases hfind : (first :: rest).find? (· < 0) with
  | some count =>
    have hneg := find?_some hfind
    exact iff_of_true (.inl rfl) (.inl ⟨count, mem_of_find?_eq_some hfind, of_decide_eq_true hneg⟩)
  | none =>
    have hnone : ¬ ∃ n ∈ first :: rest, n < 0 := by
      rintro ⟨n, hn, hneg⟩
      exact find?_eq_none.mp hfind n hn (decide_eq_true hneg)
    have hall : ∀ n ∈ first :: rest, 0 ≤ n.toInt := by
      intro n hn
      by_contra hneg
      exact hnone ⟨n, hn, Int32.lt_iff_toInt_lt.mpr (Int.not_le.mp hneg)⟩
    have hbuilds := builds_createArray gc descriptor kind first rest hall
    rw [or_iff_right hnone]
    cases hfit : fitAll h.capacity gc.live h.mark (askedBytes (nestArrays kind first rest)) with
    | some next =>
      obtain ⟨start, s, new, heq, -, -, -, hnew, hasked, hplaced⟩ :=
        hbuilds.fit ⟨h, []⟩ next hs hfit
      have hnew : s.created = new := hnew.trans (append_nil new)
      subst hnew
      rw [heq]
      refine iff_of_true ⟨hasked, hplaced, ?_⟩ rfl
      intro c hc
      exact createArray_start heq hasked hc
    | none =>
      refine iff_of_false ?_ (by exact nofun)
      have hunfit := hbuilds.unfit ⟨h, []⟩
      generalize createArray gc descriptor kind first rest ⟨h, []⟩ = made at hunfit
      obtain ⟨made, s⟩ := made
      cases made with
      | array start =>
        rintro ⟨-, hplaced, -⟩
        obtain ⟨c, hc, hbad⟩ := hunfit start s hs hfit rfl
        exact hbad (hplaced c hc)
      | exhausted => exact id
      | trapped => exact id

/-! ### Every path -/

def ArrayPath.asked : ArrayPath → List (Int32 × ℕ)
  | .newarray kind count | .reflectNewArray kind count | .clone kind count _
  | .native kind count => [(count, kind.size)]
  | .anewarray count => [(count, ComponentKind.reference.size)]
  | .multianewarray kind first rest => nestArrays kind first rest

/-- The count is refused, or the sizes do not wrap before the heap is compared with them. -/
def ArrayPath.Fits (gc : Collector) (h : VmHeap) : ArrayPath → Prop
  | .newarray kind count => count < 0 ∨ FitsOne gc h kind count
  | .anewarray count => count < 0 ∨ FitsOne gc h .reference count
  | .multianewarray kind first rest => (∃ n ∈ first :: rest, n < 0) ∨
      (fitAll h.capacity gc.live h.mark (askedBytes (nestArrays kind first rest))).isSome
  | .reflectNewArray kind count | .clone kind count _ | .native kind count =>
    FitsOne gc h kind count

def freshHeap : VmHeap := ⟨67108864, 67108864, 0, fun _ => 0, [], [], 0⟩

theorem freshHeap_sound : freshHeap.Sound :=
  ⟨by decide, by decide, by decide, nofun⟩

def emptyCollector : Collector := ⟨fun _ => 0, fun _ h => ⟨h.bytes, [], id⟩, nofun⟩

end TraceJvm
