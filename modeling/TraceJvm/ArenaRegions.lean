import TraceJvm.FieldLayout
import Mathlib.Data.List.Infix

/-! Arenas: lists of regions that blocks are cut from, up to the release of all of them. -/
namespace TraceJvm

open List

open Placement (alignUp)

/-- One more than the greatest `size_t`. -/
def PointerWidth.sizeLimit (w : PointerWidth) : ℕ := 256 ^ w.bytes

/-- `sizeof(arena_region)` -/
def sizeofRegion (w : PointerWidth) : ℕ := alignUp (3 * w.bytes) 8

/-- `align_up(count * bytes, 8)` -/
def arenaSize (w : PointerWidth) (count bytes : ℕ) : ℕ :=
  (count * bytes % w.sizeLimit + 7) % w.sizeLimit / 8 * 8

structure ArenaRegion where
  /-- The number of the region; the regions lie apart from each other. -/
  base : ℕ
  used : ℕ
  capacity : ℕ
  /-- How many bytes there are behind the header. -/
  room : ℕ
  data : ℕ → UInt8

/-- `calloc(1, sizeof(arena_region) + n)`. There is no object of more than `PTRDIFF_MAX` bytes. -/
def callocRegion (w : PointerWidth) (base n used : ℕ) : ArenaRegion where
  base := base
  used := used
  capacity := n
  room :=
    if (sizeofRegion w + n) % w.sizeLimit < w.sizeLimit / 2 then
      (sizeofRegion w + n) % w.sizeLimit - sizeofRegion w
    else 0
  data _ := 0

/-- What `arena_alloc` has returned for a request of `size` bytes, and whether they were zero. -/
structure ArenaBlock where
  region : ℕ
  offset : ℕ
  size : ℕ
  zeroed : Bool

def ArenaRegion.block (r : ArenaRegion) (offset size : ℕ) : ArenaBlock :=
  ⟨r.base, offset, size, (List.range size).all fun i => r.data (offset + i) = 0⟩

/-- An arena, its list of regions from `begin` on, with the number of regions made so far, the
blocks returned, and the regions freed. -/
structure ArenaVm where
  regions : List ArenaRegion
  made : ℕ
  blocks : List ArenaBlock
  freed : List ℕ

inductive ArenaOp where
  | alloc (count bytes : ℕ)
  /-- The owner of the block writes one of its bytes. -/
  | write (block i : ℕ) (value : UInt8)

namespace ArenaVm

/-- `arena_init` -/
def init : ArenaVm := ⟨[], 0, [], []⟩

def hasRoom (w : PointerWidth) (s : ArenaVm) (allocate : ℕ) : Bool :=
  match s.regions with
  | [] => false
  | r :: _ => (r.used + allocate) % w.sizeLimit ≤ r.capacity

def addRegion (w : PointerWidth) (s : ArenaVm) : ArenaVm :=
  { s with regions := callocRegion w s.made 4096 0 :: s.regions, made := s.made + 1 }

def cutBlock (w : PointerWidth) (s : ArenaVm) (allocate size : ℕ) : ArenaVm :=
  match s.regions with
  | [] => s
  | r :: rs =>
    { s with
      regions := { r with used := (r.used + allocate) % w.sizeLimit } :: rs
      blocks := r.block r.used size :: s.blocks }

/-- A region of its own for a large request, behind the first one. -/
def addLarge (w : PointerWidth) (s : ArenaVm) (allocate size : ℕ) : ArenaVm :=
  let region := callocRegion w s.made allocate allocate
  { s with
    regions := match s.regions with
      | [] => [region]
      | r :: rs => r :: region :: rs
    made := s.made + 1
    blocks := region.block 0 size :: s.blocks }

theorem addLarge_perm (w : PointerWidth) (s : ArenaVm) (allocate size : ℕ) :
    (s.addLarge w allocate size).regions.Perm
      (callocRegion w s.made allocate allocate :: s.regions) := by
  unfold addLarge
  dsimp only
  cases s.regions with
  | nil => exact .refl _
  | cons r rs => exact .swap _ _ _

/-- The call of itself by which the source goes on after a new region always takes its last
branch. -/
def arenaAlloc (w : PointerWidth) (s : ArenaVm) (count bytes : ℕ) : ArenaVm :=
  let allocate := arenaSize w count bytes
  if 4096 < allocate then s.addLarge w allocate (count * bytes)
  else
    (if s.hasRoom w allocate then s else s.addRegion w).cutBlock w allocate (count * bytes)

def write (s : ArenaVm) (block i : ℕ) (value : UInt8) : ArenaVm :=
  match s.blocks[block]? with
  | none => s
  | some b =>
    if i < b.size then
      { s with regions := s.regions.map fun r =>
          if r.base = b.region then { r with data := Function.update r.data (b.offset + i) value }
          else r }
    else s

def step (w : PointerWidth) (s : ArenaVm) : ArenaOp → ArenaVm
  | .alloc count bytes => s.arenaAlloc w count bytes
  | .write block i value => s.write block i value

def run (w : PointerWidth) (ops : List ArenaOp) : ArenaVm := ops.foldl (step w) init

def arenaUninit (s : ArenaVm) : ArenaVm :=
  { s with regions := [], freed := s.freed ++ s.regions.map ArenaRegion.base }

end ArenaVm

/-! ### What is expected of an arena -/

def ArenaBlock.Apart (a b : ArenaBlock) : Prop :=
  a.region ≠ b.region ∨ a.offset + a.size ≤ b.offset ∨ b.offset + b.size ≤ a.offset

structure ArenaRight (s : ArenaVm) : Prop where
  inside : ∀ b ∈ s.blocks, ∃ r ∈ s.regions, r.base = b.region ∧ b.offset + b.size ≤ r.room
  apart : s.blocks.Pairwise ArenaBlock.Apart
  aligned : ∀ b ∈ s.blocks, 8 ∣ b.offset
  zeroed : ∀ b ∈ s.blocks, b.zeroed = true
  released : s.arenaUninit.freed.Perm (List.range s.made)

/-- A region with room for the request is an object. -/
def ArenaFits (w : PointerWidth) (count bytes : ℕ) : Prop :=
  sizeofRegion w + alignUp (count * bytes) 8 < w.sizeLimit / 2

instance (w : PointerWidth) (count bytes : ℕ) : Decidable (ArenaFits w count bytes) :=
  inferInstanceAs (Decidable (_ < _))

theorem PointerWidth.sizes (w : PointerWidth) :
    8 ≤ sizeofRegion w ∧ sizeofRegion w + 8192 < w.sizeLimit / 2 := by
  cases w <;> decide

theorem arenaSize_eq {w : PointerWidth} {count bytes : ℕ} (h : ArenaFits w count bytes) :
    arenaSize w count bytes = alignUp (count * bytes) 8 := by
  have hsizes := w.sizes
  unfold ArenaFits alignUp at h
  unfold arenaSize
  rw [Nat.mod_eq_of_lt (by omega : count * bytes < w.sizeLimit), Nat.mod_eq_of_lt (by omega)]
  rfl

structure ArenaRegion.Good (w : PointerWidth) (r : ArenaRegion) : Prop where
  used_le : r.used ≤ r.capacity
  room_eq : r.room = r.capacity
  bounded : r.capacity < w.sizeLimit / 2
  aligned : 8 ∣ r.used
  zero : ∀ o, r.used ≤ o → r.data o = 0

/-- The block lies in what the region has given out. -/
def ArenaBlock.In (b : ArenaBlock) (r : ArenaRegion) : Prop :=
  r.base = b.region ∧ b.offset + b.size ≤ r.used

structure ArenaInv (w : PointerWidth) (s : ArenaVm) : Prop where
  bases : (s.regions.map ArenaRegion.base).Perm (List.range s.made)
  regions : ∀ r ∈ s.regions, r.Good w
  blocks : ∀ b ∈ s.blocks, 8 ∣ b.offset ∧ b.zeroed = true ∧ ∃ r ∈ s.regions, b.In r
  apart : s.blocks.Pairwise ArenaBlock.Apart
  freed : s.freed = []

namespace ArenaInv

variable {w : PointerWidth} {s : ArenaVm}

theorem right (h : ArenaInv w s) : ArenaRight s where
  inside b hb := by
    obtain ⟨-, -, r, hr, hbase, hle⟩ := h.blocks b hb
    have hgood := h.regions r hr
    exact ⟨r, hr, hbase, by rw [hgood.room_eq]; exact Nat.le_trans hle hgood.used_le⟩
  apart := h.apart
  aligned b hb := (h.blocks b hb).1
  zeroed b hb := (h.blocks b hb).2.1
  released := by
    rw [ArenaVm.arenaUninit, h.freed, nil_append]
    exact h.bases

theorem callocRegion_good {n used : ℕ} (hn : sizeofRegion w + n < w.sizeLimit / 2)
    (hused : used ≤ n) (hdvd : 8 ∣ used) : (callocRegion w s.made n used).Good w where
  used_le := hused
  room_eq := by
    have hmod : (sizeofRegion w + n) % w.sizeLimit = sizeofRegion w + n :=
      Nat.mod_eq_of_lt (by omega)
    rw [callocRegion, hmod, if_pos hn, Nat.add_sub_cancel_left]
  bounded := Nat.lt_of_le_of_lt (Nat.le_add_left _ _) hn
  aligned := hdvd
  zero _ _ := rfl

theorem zeroed_block {r : ArenaRegion} {o : ℕ} (ho : ∀ i, r.data (o + i) = 0) (size : ℕ) :
    (r.block o size).zeroed = true := by
  simp [ArenaRegion.block, ho]

/-- The next region has a number of its own. -/
theorem fresh (h : ArenaInv w s) {b : ArenaBlock} (hb : b ∈ s.blocks) : b.region ≠ s.made := by
  obtain ⟨-, -, r, hr, hbase, -⟩ := h.blocks b hb
  have hmem := h.bases.mem_iff.mp (mem_map_of_mem hr)
  rw [hbase, mem_range] at hmem
  exact Nat.ne_of_lt hmem

/-- A region is added, and perhaps the block that it was made for. -/
theorem add (h : ArenaInv w s) {region : ArenaRegion} {regions : List ArenaRegion}
    {blocks : List ArenaBlock} (hperm : regions.Perm (region :: s.regions))
    (hbase : region.base = s.made) (hgood : region.Good w)
    (hblocks : blocks = s.blocks ∨
      ∃ size ≤ region.used, blocks = region.block 0 size :: s.blocks ∧ ∀ o, region.data o = 0) :
    ArenaInv w { s with regions := regions, made := s.made + 1, blocks := blocks } := by
  have hold : ∀ b ∈ s.blocks, 8 ∣ b.offset ∧ b.zeroed = true ∧ ∃ r ∈ regions, b.In r := by
    intro b hb
    obtain ⟨hdvd, hzero, r, hr, hin⟩ := h.blocks b hb
    exact ⟨hdvd, hzero, r, hperm.mem_iff.mpr (mem_cons_of_mem _ hr), hin⟩
  refine ⟨?_, fun r hr => ?_, ?_, ?_, h.freed⟩
  · apply (hperm.map _).trans
    rw [map_cons, hbase, range_succ]
    exact (h.bases.cons _).trans (perm_append_singleton _ _).symm
  · rcases mem_cons.mp (hperm.mem_iff.mp hr) with rfl | hr
    · exact hgood
    · exact h.regions r hr
  · rcases hblocks with rfl | ⟨size, hsize, rfl, hzero⟩
    · exact hold
    · intro b hb
      rcases mem_cons.mp hb with rfl | hb
      · refine ⟨Nat.dvd_zero _, zeroed_block (fun i => hzero _) size, region,
          hperm.mem_iff.mpr mem_cons_self, rfl, ?_⟩
        exact (Nat.zero_add size).symm ▸ hsize
      · exact hold b hb
  · rcases hblocks with rfl | ⟨size, -, rfl, -⟩
    · exact h.apart
    · refine pairwise_cons.mpr ⟨fun b hb => .inl ?_, h.apart⟩
      show region.base ≠ b.region
      rw [hbase]
      exact (h.fresh hb).symm

theorem cut (h : ArenaInv w s) {allocate size : ℕ} (hroom : s.hasRoom w allocate = true)
    (hdvd : 8 ∣ allocate) (hsize : size ≤ allocate) (hsmall : allocate ≤ 4096) :
    ArenaInv w (s.cutBlock w allocate size) := by
  obtain ⟨regions, made, blocks, freed⟩ := s
  cases regions with
  | nil => cases hroom
  | cons r rs =>
    have hgood := h.regions r mem_cons_self
    have hlimit := w.sizes
    have hbounded := hgood.bounded
    have hused := hgood.used_le
    have hmod : (r.used + allocate) % w.sizeLimit = r.used + allocate :=
      Nat.mod_eq_of_lt (by omega)
    simp only [ArenaVm.hasRoom, hmod, decide_eq_true_eq] at hroom
    simp only [ArenaVm.cutBlock, hmod]
    have hin : ∀ {b : ArenaBlock}, (∃ r' ∈ r :: rs, b.In r') →
        ∃ r' ∈ { r with used := r.used + allocate } :: rs, b.In r' := by
      rintro b ⟨r', hr', hbase, hle⟩
      rcases mem_cons.mp hr' with rfl | hr'
      · exact ⟨_, mem_cons_self, hbase, by dsimp only; omega⟩
      · exact ⟨r', mem_cons_of_mem _ hr', hbase, hle⟩
    refine ⟨h.bases, fun r' hr' => ?_, fun b hb => ?_, ?_, h.freed⟩
    · rcases mem_cons.mp hr' with rfl | hr'
      · exact ⟨hroom, hgood.room_eq, hbounded, Nat.dvd_add hgood.aligned hdvd,
          fun o ho => hgood.zero o (Nat.le_trans (Nat.le_add_right _ _) ho)⟩
      · exact h.regions r' (mem_cons_of_mem _ hr')
    · rcases mem_cons.mp hb with rfl | hb
      · exact ⟨hgood.aligned, zeroed_block (fun i => hgood.zero _ (Nat.le_add_right _ _)) size,
          _, mem_cons_self, rfl, Nat.add_le_add_left hsize _⟩
      · obtain ⟨h8, hzero, hr⟩ := h.blocks b hb
        exact ⟨h8, hzero, hin hr⟩
    · refine pairwise_cons.mpr ⟨fun b hb => ?_, h.apart⟩
      obtain ⟨-, -, r', hr', hbase, hle⟩ := h.blocks b hb
      rcases mem_cons.mp hr' with rfl | hr'
      · exact .inr (.inr hle)
      · -- the regions have different numbers
        have hdistinct := h.bases.nodup_iff.mpr nodup_range
        rw [map_cons, nodup_cons] at hdistinct
        refine .inl fun heq => hdistinct.1 ?_
        rw [show r.base = b.region from heq, ← hbase]
        exact mem_map_of_mem hr'

theorem alloc (h : ArenaInv w s) {count bytes : ℕ} (hfits : ArenaFits w count bytes) :
    ArenaInv w (s.arenaAlloc w count bytes) := by
  have hsize := Placement.le_alignUp (count * bytes) (n := 8) (by decide)
  have hdvd := Placement.dvd_alignUp (count * bytes) 8
  unfold ArenaVm.arenaAlloc
  rw [arenaSize_eq hfits]
  dsimp only
  split
  · have hgood := callocRegion_good (s := s) hfits (Nat.le_refl _) hdvd
    exact h.add (s.addLarge_perm w _ 0) rfl hgood (.inr ⟨_, hsize, rfl, fun _ => rfl⟩)
  · rename_i hsmall
    rw [not_lt] at hsmall
    split
    · exact h.cut ‹_› hdvd hsize hsmall
    · have hsizes := w.sizes
      have hgood : (callocRegion w s.made 4096 0).Good w :=
        callocRegion_good (by omega) (Nat.zero_le _) (Nat.dvd_zero _)
      have hadd : ArenaInv w (s.addRegion w) := h.add (.refl _) rfl hgood (.inl rfl)
      apply hadd.cut _ hdvd hsize hsmall
      simp only [ArenaVm.hasRoom, ArenaVm.addRegion, callocRegion, Nat.zero_add, decide_eq_true_eq]
      exact Nat.le_trans (Nat.mod_le _ _) hsmall

theorem write (h : ArenaInv w s) (block i : ℕ) (value : UInt8) :
    ArenaInv w (s.write block i value) := by
  unfold ArenaVm.write
  cases hb : s.blocks[block]? with
  | none => exact h
  | some b =>
    dsimp only
    split
    · rename_i hi
      have hmem := mem_of_getElem? hb
      obtain ⟨-, -, r₀, hr₀, hbase₀, hle₀⟩ := h.blocks b hmem
      have hdistinct := h.bases.nodup_iff.mpr nodup_range
      refine ⟨?_, fun r hr => ?_, fun b' hb' => ?_, h.apart, h.freed⟩
      · rw [map_map]
        convert h.bases using 2
        funext r
        rw [Function.comp_apply, apply_ite ArenaRegion.base]
        exact ite_self _
      · obtain ⟨r, hmap, rfl⟩ := mem_map.mp hr
        have hgood := h.regions r hmap
        split
        · rename_i hbase
          obtain rfl : r = r₀ :=
            inj_on_of_nodup_map hdistinct hmap hr₀ (hbase.trans hbase₀.symm)
          refine { hgood with zero := fun o ho => ?_ }
          have hne : o ≠ b.offset + i := by
            have : r.used ≤ o := ho
            omega
          exact (Function.update_of_ne hne _ _).trans (hgood.zero o ho)
        · exact hgood
      · obtain ⟨h8, hzero, r, hr, hin⟩ := h.blocks b' hb'
        refine ⟨h8, hzero, _, mem_map_of_mem hr, ?_⟩
        split <;> exact hin
    · exact h

end ArenaInv

theorem arenaInv_run {w : PointerWidth} {ops : List ArenaOp}
    (hfits : ∀ count bytes, .alloc count bytes ∈ ops → ArenaFits w count bytes) :
    ArenaInv w (.run w ops) := by
  induction ops using List.reverseRecOn with
  | nil => exact ⟨.refl _, nofun, nofun, .nil, rfl⟩
  | append_singleton ops op ih =>
    have hrun := ih fun count bytes hmem => hfits count bytes (mem_append_left _ hmem)
    rw [ArenaVm.run, foldl_append]
    cases op with
    | alloc count bytes => exact hrun.alloc (hfits count bytes (by simp))
    | write block i value => exact hrun.write block i value

/-- The regions have numbers of those made, and none is larger than an object. -/
def ArenaVm.Bounded (w : PointerWidth) (s : ArenaVm) : Prop :=
  ∀ r ∈ s.regions, r.base < s.made ∧ r.room < w.sizeLimit / 2

theorem callocRegion_bounded (w : PointerWidth) (base n used : ℕ) :
    (callocRegion w base n used).room < w.sizeLimit / 2 := by
  have hsizes := w.sizes
  unfold callocRegion
  dsimp only
  split <;> omega

theorem bounded_cut {w : PointerWidth} {s : ArenaVm} (h : s.Bounded w) (allocate size : ℕ) :
    (s.cutBlock w allocate size).Bounded w := by
  obtain ⟨regions, made, blocks, freed⟩ := s
  cases regions with
  | nil => exact h
  | cons r rs => exact forall_mem_cons.mpr (forall_mem_cons.mp h)

theorem bounded_step {w : PointerWidth} {s : ArenaVm} (h : s.Bounded w) (op : ArenaOp) :
    (s.step w op).Bounded w := by
  have hnew : ∀ n used r, r ∈ callocRegion w s.made n used :: s.regions →
      r.base < s.made + 1 ∧ r.room < w.sizeLimit / 2 := by
    intro n used r hr
    rcases mem_cons.mp hr with rfl | hr
    · exact ⟨Nat.lt_succ_self _, callocRegion_bounded w _ _ _⟩
    · exact ⟨Nat.lt_succ_of_lt (h r hr).1, (h r hr).2⟩
  cases op with
  | alloc count bytes =>
    show (s.arenaAlloc w count bytes).Bounded w
    unfold ArenaVm.arenaAlloc
    dsimp only
    split
    · exact fun r hr => hnew _ _ r ((s.addLarge_perm w _ _).mem_iff.mp hr)
    · apply bounded_cut
      split
      · exact h
      · exact hnew _ _
  | write block i value =>
    show (s.write block i value).Bounded w
    unfold ArenaVm.write
    cases s.blocks[block]? with
    | none => exact h
    | some b =>
      dsimp only
      split
      · intro r hr
        obtain ⟨r, hmap, rfl⟩ := mem_map.mp hr
        split <;> exact h r hmap
      · exact h

theorem bounded_run (w : PointerWidth) (ops : List ArenaOp) : (ArenaVm.run w ops).Bounded w := by
  induction ops using List.reverseRecOn with
  | nil => exact nofun
  | append_singleton ops op ih =>
    rw [ArenaVm.run, foldl_append]
    exact bounded_step ih op

/-- Every request is answered with a block. -/
theorem exists_block (w : PointerWidth) (s : ArenaVm) (count bytes : ℕ) :
    ∃ b ∈ (s.arenaAlloc w count bytes).blocks, b.size = count * bytes := by
  have hcut : ∀ {s' : ArenaVm}, s'.regions ≠ [] → ∀ allocate,
      ∃ b ∈ (s'.cutBlock w allocate (count * bytes)).blocks, b.size = count * bytes := by
    rintro ⟨regions, made, blocks, freed⟩ hne allocate
    cases regions with
    | nil => exact absurd rfl hne
    | cons r rs => exact ⟨_, mem_cons_self, rfl⟩
  unfold ArenaVm.arenaAlloc
  dsimp only
  split
  · exact ⟨_, mem_cons_self, rfl⟩
  · apply hcut
    split
    · rename_i hroom
      intro hnil
      rw [ArenaVm.hasRoom, hnil] at hroom
      cases hroom
    · exact cons_ne_nil _ _

/-- A request that does not fit is answered with a block that no region holds. -/
theorem not_right_of_alloc {w : PointerWidth} {s : ArenaVm} (h : s.Bounded w) {count bytes : ℕ}
    (hfits : ¬ ArenaFits w count bytes) : ¬ ArenaRight (s.arenaAlloc w count bytes) := by
  have hafter : (s.arenaAlloc w count bytes).Bounded w := bounded_step h (.alloc count bytes)
  have hsizes := w.sizes
  intro hright
  unfold ArenaFits at hfits
  by_cases hhuge : w.sizeLimit / 2 ≤ count * bytes
  · obtain ⟨b, hb, hsize⟩ := exists_block w s count bytes
    obtain ⟨r, hr, -, hle⟩ := hright.inside b hb
    have := (hafter r hr).2
    omega
  · -- the region of its own would be too large for an object
    have hmod : count * bytes % w.sizeLimit = count * bytes := Nat.mod_eq_of_lt (by omega)
    have hsize : arenaSize w count bytes = alignUp (count * bytes) 8 := by
      rw [arenaSize, hmod, Nat.mod_eq_of_lt (by omega)]
      rfl
    have hle := Placement.le_alignUp (count * bytes) (n := 8) (by decide)
    have hup : alignUp (count * bytes) 8 ≤ count * bytes + 7 := Nat.div_mul_le_self _ _
    have heq : s.arenaAlloc w count bytes =
        s.addLarge w (alignUp (count * bytes) 8) (count * bytes) := by
      rw [ArenaVm.arenaAlloc, hsize]
      exact if_pos (by omega)
    rw [heq] at hright
    obtain ⟨r, hr, hbase, hroom⟩ := hright.inside _ mem_cons_self
    change r.base = s.made at hbase
    change 0 + count * bytes ≤ r.room at hroom
    rcases mem_cons.mp ((s.addLarge_perm w _ _).mem_iff.mp hr) with rfl | hr
    · have hzero : (callocRegion w s.made (alignUp (count * bytes) 8)
          (alignUp (count * bytes) 8)).room = 0 := by
        rw [callocRegion, Nat.mod_eq_of_lt (by omega), if_neg hfits]
      omega
    · have := (h r hr).1
      omega

/-- The blocks are as they should be after every operation exactly if every request can be
satisfied with an object. -/
theorem arena_right_iff (w : PointerWidth) (ops : List ArenaOp) :
    (∀ before, before <+: ops → ArenaRight (.run w before)) ↔
      ∀ count bytes, .alloc count bytes ∈ ops → ArenaFits w count bytes := by
  constructor
  · intro h count bytes hmem
    by_contra hfits
    obtain ⟨before, after, rfl⟩ := append_of_mem hmem
    have hright := h (before ++ [.alloc count bytes]) ⟨after, by simp⟩
    rw [ArenaVm.run, foldl_append] at hright
    exact not_right_of_alloc (bounded_run w before) hfits hright
  · rintro h before ⟨after, rfl⟩
    exact (arenaInv_run fun count bytes hmem =>
      h count bytes (mem_append_left _ hmem)).right

/-- A request for `2 ^ 61` elements of 8 bytes is answered with an empty block. -/
theorem product_wraps : ¬ ∀ before, before <+: [.alloc (2 ^ 61) 8] →
    ArenaRight (.run .bits64 before) := by
  intro h
  have hfits : ¬ ArenaFits .bits64 (2 ^ 61) 8 := by decide
  exact not_right_of_alloc (bounded_run .bits64 []) hfits (h _ (prefix_refl _))

end TraceJvm
