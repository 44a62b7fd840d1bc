import TraceJvm.ArrayAllocation
import TraceJvm.DynamicLinkage
import TraceJvm.TypeTables
import TraceJvm.Lib.MovingHeap

/-! `CreateArray` as a builder of trees of arrays. Every allocation can fail, and it can move the
arrays that have been built. -/
namespace TraceJvm

open MovingHeap List OrderedMap SlotTable

/-! ### The heap -/

/-- An exception by its kind; `other` is what resolution and linking raise. -/
inductive ArrayThrown where
  | outOfMemory
  | negativeArraySize (count : Int32)
  | other (e : ℕ)
  deriving DecidableEq

inductive ArrayOperand where
  | int (v : Int32)
  | reference (p : ℕ)
  deriving DecidableEq

namespace ArrayOperand

/-- The field `i` of a `stack_value`. -/
def i : ArrayOperand → Int32
  | int v => v
  | reference p => Int32.ofNat p

def relocate (f : ℕ → ℕ) : ArrayOperand → ArrayOperand
  | int v => .int v
  | reference p => .reference (f p)

theorem relocate_id : relocate id = id := by
  funext operand
  cases operand with
  | int v => rfl
  | reference p => rfl

theorem relocate_comp (f g : ℕ → ℕ) : relocate g ∘ relocate f = relocate (g ∘ f) := by
  funext operand
  cases operand with
  | int v => rfl
  | reference p => rfl

end ArrayOperand

structure ArrayVm where
  heap : Heap ClassRef
  /-- The operand stack of the frame; what was pushed last comes last. -/
  stack : List ArrayOperand
  handles : List (Option ℕ)
  /-- The number of allocations so far. -/
  allocations : ℕ
  currentException : Option ArrayThrown
  deriving DecidableEq

def ArrayVm.Root (s : ArrayVm) (a : ℕ) : Prop :=
  a ≠ 0 ∧ (.reference a ∈ s.stack ∨ some a ∈ s.handles)

namespace TypeWorld

variable (W : TypeWorld)

def elementKind (r : ClassRef) : TypeKind :=
  if W.kind r = .primitiveArray then W.primitiveKind r.base else .reference

/-- `sizeof_type_kind` of the elements. -/
def elementSize (r : ClassRef) : ℕ := (sizeofTypeKind .bits32 (W.elementKind r)).getD 0

def holdsReferences (r : ClassRef) : Bool := decide (W.kind r = .ordinaryArray)

/-- The allocator: which allocations fail, what a collection at one of them does, and where the new
array goes. -/
structure Allocator where
  refuses : ℕ → Bool
  motion : ArrayVm → Motion
  place : ArrayVm → ℕ
  keeps : ∀ s a, Reached W.holdsReferences s.heap s.Root a → (motion s).keeps a = true
  free : ∀ s, place s ≠ 0 ∧ get (s.heap.compact W.holdsReferences (motion s)) (place s) = none

namespace Allocator

variable {W : TypeWorld} (env : W.Allocator)

def collect (s : ArrayVm) : ArrayVm :=
  { s with
    heap := s.heap.compact W.holdsReferences (env.motion s)
    stack := s.stack.map (ArrayOperand.relocate (env.motion s).move)
    handles := s.handles.map (Option.map (env.motion s).move)
    allocations := s.allocations + 1 }

def bytes (W : TypeWorld) (r : ClassRef) (count : ℕ) : ℕ :=
  arrayDataOffset + count * W.elementSize r

def Fits (W : TypeWorld) (r : ClassRef) (count : ℕ) : Prop :=
  bytes W r count ≤ VmHeap.alignBytes (bytes W r count % sizeWord)

instance (r : ClassRef) (count : ℕ) : Decidable (Fits W r count) :=
  inferInstanceAs (Decidable (_ ≤ _))

/-- `create_1d_primitive_array` and `CreateObjectArray1D` for the array class; the address is 0
where there is no memory. The elements of an array that does not fit lie over what follows it. -/
def createArray1D (r : ClassRef) (count : ℕ) (s : ArrayVm) : Except Crash (ℕ × ArrayVm) :=
  if r.dims = 0 then .error .aborted
  else if env.refuses s.allocations then
    .ok (0, { env.collect s with currentException := some .outOfMemory })
  else if ¬ Fits W r count then .error .undefined
  else
    .ok (env.place s, { env.collect s with
      heap := set (env.collect s).heap (env.place s) ⟨r, List.replicate count 0⟩ })

end Allocator

end TypeWorld

/-! ### `CreateArray` -/

namespace ArrayVm

def makeHandle (s : ArrayVm) (a : ℕ) : Except Crash (JavaHandle × ArrayVm) :=
  if a = 0 then .ok (.null, s)
  else
    match fill s.handles a with
    | some (handles, i) => .ok (.slot i, { s with handles := handles })
    | none => .error .exhausted

def dropHandle (s : ArrayVm) : JavaHandle → ArrayVm
  | .null => s
  | .slot i => { s with handles := drop s.handles i }

/-- `obj` of a handle. -/
def obj (s : ArrayVm) : JavaHandle → ℕ
  | .null => 0
  | .slot i => (s.handles[i]?.join).getD 0

/-- `ReferenceArrayStore(arr->obj, i, subarray)` -/
def store (s : ArrayVm) (arr : JavaHandle) (i subarray : ℕ) : Except Crash ArrayVm :=
  if s.obj arr = 0 then .error .undefined
  else
    match get s.heap (s.obj arr) with
    | none => .error .undefined
    | some c =>
      if i < c.fields.length then
        .ok { s with
          heap := set s.heap (s.obj arr) { c with fields := c.fields.set i subarray } }
      else .error .undefined

/-- The loop of `CreateArray` over the last elements; `false` where there is no memory. -/
def fillLoop (sub : ArrayVm → Except Crash (ℕ × ArrayVm)) (arr : JavaHandle) :
    ℕ → ℕ → ArrayVm → Except Crash (Bool × ArrayVm)
  | 0, _, s => .ok (true, s)
  | n + 1, i, s => do
    let (subarray, s) ← sub s
    if subarray = 0 then
      return (false, s)
    let s ← s.store arr i subarray
    fillLoop sub arr n (i + 1) s

/-- `CreateArray` for the class and the sizes, of which the first is given apart. -/
def createArray {W : TypeWorld} (env : W.Allocator) :
    List ℕ → ClassRef → ℕ → ArrayVm → Except Crash (ℕ × ArrayVm)
  | [], r, n, s => env.createArray1D r n s
  | c :: cs, r, n, s => do
    let (array, s) ← env.createArray1D r n s
    let (arr, s) ← s.makeHandle array
    let (done, s) ← fillLoop (createArray env cs ⟨r.base, r.dims - 1⟩ c) arr n 0 s
    return (if done then s.obj arr else 0, s.dropHandle arr)

end ArrayVm

/-! ### Trees -/

/-- The array at an address is a tree of the sizes with zero or null leaves, and the arrays of the
tree are those at the given addresses. -/
def ArrayTree (h : Heap ClassRef) : List ℕ → ClassRef → ℕ → ℕ → List ℕ → Prop
  | [], r, n, a, nodes =>
    a ≠ 0 ∧ get h a = some ⟨r, List.replicate n 0⟩ ∧ nodes = [a]
  | c :: cs, r, n, a, nodes =>
    a ≠ 0 ∧ ∃ subs subnodes, subs.length = n ∧ get h a = some ⟨r, subs⟩ ∧
      List.Forall₂ (ArrayTree h cs ⟨r.base, r.dims - 1⟩ c) subs subnodes ∧
      nodes = a :: subnodes.flatten

def treeArrays : List ℕ → ℕ → ℕ
  | [], _ => 1
  | c :: cs, n => 1 + n * treeArrays cs c

def treeHandles : List ℕ → ℕ → ℕ
  | [], _ => 0
  | c :: cs, n => 1 + if n = 0 then 0 else treeHandles cs c

def TreeFits (W : TypeWorld) : List ℕ → ClassRef → ℕ → Prop
  | [], r, n => TypeWorld.Allocator.Fits W r n
  | c :: cs, r, n => TypeWorld.Allocator.Fits W r n ∧
      (n ≠ 0 → TreeFits W cs ⟨r.base, r.dims - 1⟩ c)

/-- No allocation of the tree fails, no array is too large, and there are handles enough. -/
structure Buildable {W : TypeWorld} (env : W.Allocator) (rest : List ℕ) (r : ClassRef) (first : ℕ)
    (s : ArrayVm) : Prop where
  memory : ∀ k < treeArrays rest first, env.refuses (s.allocations + k) = false
  handles : treeHandles rest first ≤ free s.handles
  fits : TreeFits W rest r first

section Trees

variable {W : TypeWorld} {h h' : Heap ClassRef} {roots roots' : ℕ → Prop} {e : Option ℕ}
  {f : ℕ → ℕ} {cs : List ℕ} {r : ClassRef} {n a : ℕ} {nodes : List ℕ}

theorem ArrayTree.ne_zero (ht : ArrayTree h cs r n a nodes) : a ≠ 0 := by
  cases cs with
  | nil => exact ht.1
  | cons c cs => exact ht.1

theorem ArrayTree.cell (ht : ArrayTree h cs r n a nodes) : ∃ c, get h a = some c := by
  cases cs with
  | nil => exact ⟨_, ht.2.1⟩
  | cons c cs =>
    obtain ⟨-, subs, subnodes, -, hcell, -, -⟩ := ht
    exact ⟨_, hcell⟩

theorem forall₂_set {x : ℕ} {c' : HeapCell ClassRef}
    (hset : ∀ {b ns}, ArrayTree h cs r n b ns → x ∉ ns → ArrayTree (set h x c') cs r n b ns)
    {subs : List ℕ} {subnodes : List (List ℕ)}
    (htrees : List.Forall₂ (ArrayTree h cs r n) subs subnodes) (hx : x ∉ subnodes.flatten) :
    List.Forall₂ (ArrayTree (set h x c') cs r n) subs subnodes := by
  induction htrees with
  | nil => exact .nil
  | cons htree _ ih =>
    rw [flatten_cons, mem_append, not_or] at hx
    exact .cons (hset htree hx.1) (ih hx.2)

theorem ArrayTree.set (ht : ArrayTree h cs r n a nodes) {x : ℕ} (hx : x ∉ nodes)
    (c' : HeapCell ClassRef) : ArrayTree (set h x c') cs r n a nodes := by
  induction cs generalizing r n a nodes with
  | nil =>
    obtain ⟨hzero, hcell, rfl⟩ := ht
    have hne : x ≠ a := fun heq => hx (mem_singleton.mpr heq)
    exact ⟨hzero, (get_set_of_ne hne).trans hcell, rfl⟩
  | cons c cs ih =>
    obtain ⟨hzero, subs, subnodes, hlength, hcell, htrees, rfl⟩ := ht
    rw [mem_cons, not_or] at hx
    exact ⟨hzero, subs, subnodes, hlength, (get_set_of_ne hx.1).trans hcell,
      forall₂_set ih htrees hx.2, rfl⟩

theorem holdsReferences_of_lt (hdims : 1 < r.dims) : W.holdsReferences r = true := by
  obtain ⟨base, dims⟩ := r
  obtain ⟨d, rfl⟩ : ∃ d, dims = d + 2 := ⟨dims - 2, by dsimp only at hdims; omega⟩
  unfold TypeWorld.holdsReferences Hierarchy.kind
  dsimp only
  cases W.isPrimitive base with
  | false => rfl
  | true => rfl

theorem relocate_replicate (hnull : f 0 = 0) (r : ClassRef) (n : ℕ) :
    HeapCell.relocate W.holdsReferences f ⟨r, List.replicate n 0⟩ = ⟨r, List.replicate n 0⟩ := by
  unfold HeapCell.relocate
  split
  · rw [map_replicate, hnull]
  · rfl

theorem forall₂_carried
    (hcarried : ∀ {b ns}, ArrayTree h cs r n b ns → Reached W.holdsReferences h roots b →
      (∀ x ∈ ns, some (f x) ≠ e) → ArrayTree h' cs r n (f b) (ns.map f))
    {c : HeapCell ClassRef} (ha : Reached W.holdsReferences h roots a)
    (hcell : get h a = some c) (hrefs : W.holdsReferences c.tag = true)
    {subs : List ℕ} {subnodes : List (List ℕ)}
    (htrees : List.Forall₂ (ArrayTree h cs r n) subs subnodes) (hsubs : ∀ b ∈ subs, b ∈ c.fields)
    (he : ∀ x ∈ subnodes.flatten, some (f x) ≠ e) :
    List.Forall₂ (ArrayTree h' cs r n) (subs.map f) (subnodes.map (List.map f)) := by
  induction htrees with
  | nil => exact .nil
  | @cons b ns subs subnodes htree _ ih =>
    obtain ⟨d, hd⟩ := htree.cell
    apply List.Forall₂.cons
    · apply hcarried htree
      · exact .field ha hcell hrefs (hsubs b mem_cons_self) htree.ne_zero hd
      · intro x hx
        exact he x (mem_append_left _ hx)
    · apply ih
      · exact fun b' hb' => hsubs b' (mem_cons_of_mem _ hb')
      · exact fun x hx => he x (mem_append_right _ hx)

/-- A tree that can be reached is carried along. -/
theorem ArrayTree.carried (hc : Carried W.holdsReferences e f h roots h' roots')
    (ht : ArrayTree h cs r n a nodes) (hdims : cs.length < r.dims)
    (ha : Reached W.holdsReferences h roots a) (he : ∀ x ∈ nodes, some (f x) ≠ e) :
    ArrayTree h' cs r n (f a) (nodes.map f) := by
  have hzero : f a ≠ 0 := by
    intro heq
    exact ht.ne_zero (hc.injective (heq.trans hc.null.symm))
  induction cs generalizing r n a nodes with
  | nil =>
    obtain ⟨-, hcell, rfl⟩ := ht
    refine ⟨hzero, ?_, rfl⟩
    rw [hc.cells _ _ ha (he a mem_cons_self) hcell, relocate_replicate hc.null]
  | cons c cs ih =>
    obtain ⟨-, subs, subnodes, hlength, hcell, htrees, rfl⟩ := ht
    rw [length_cons] at hdims
    have hrefs : W.holdsReferences r = true := holdsReferences_of_lt (by omega)
    have hnew := hc.cells _ _ ha (he a mem_cons_self) hcell
    unfold HeapCell.relocate at hnew
    rw [if_pos hrefs] at hnew
    refine ⟨hzero, subs.map f, subnodes.map (List.map f), ?_, hnew, ?_, ?_⟩
    · rw [length_map, hlength]
    · apply forall₂_carried _ ha hcell hrefs htrees (fun b hb => hb)
      · exact fun x hx => he x (mem_cons_of_mem _ hx)
      · intro b ns htree hb hns
        apply ih htree _ hb hns
        · intro heq
          exact htree.ne_zero (hc.injective (heq.trans hc.null.symm))
        · show cs.length < r.dims - 1
          omega
    · rw [map_cons, map_flatten]

/-- The arrays of a tree can be reached from its root. -/
theorem ArrayTree.reached (ht : ArrayTree h cs r n a nodes) (hdims : cs.length < r.dims)
    (ha : Reached W.holdsReferences h roots a) :
    ∀ x ∈ nodes, Reached W.holdsReferences h roots x := by
  induction cs generalizing r n a nodes with
  | nil =>
    obtain ⟨-, -, rfl⟩ := ht
    intro x hx
    obtain rfl := mem_singleton.mp hx
    exact ha
  | cons c cs ih =>
    obtain ⟨-, subs, subnodes, -, hcell, htrees, rfl⟩ := ht
    rw [length_cons] at hdims
    have hrefs : W.holdsReferences r = true := holdsReferences_of_lt (by omega)
    intro x hx
    rcases mem_cons.mp hx with rfl | hx
    · exact ha
    obtain ⟨ns, hns, hx⟩ := mem_flatten.mp hx
    obtain ⟨j, hj, rfl⟩ := mem_iff_getElem.mp hns
    have hj' : j < subs.length := htrees.length_eq ▸ hj
    have htree := htrees.get hj' hj
    obtain ⟨d, hd⟩ := htree.cell
    have hreached := Reached.field ha hcell hrefs (get_mem subs _) htree.ne_zero hd
    apply ih htree _ hreached x hx
    show cs.length < r.dims - 1
    omega

end Trees

/-! ### One array -/

section Building

variable {W : TypeWorld} {env : W.Allocator} {s s' s'' : ArrayVm} {f g : ℕ → ℕ} {k l : ℕ}

/-- What has become of a state when some arrays have been made: their number, where the objects of
the handles are now, and the array that has been written to. -/
structure Built (W : TypeWorld) (k : ℕ) (e : Option ℕ) (f : ℕ → ℕ) (s s' : ArrayVm) : Prop where
  carried : Carried W.holdsReferences e f s.heap s.Root s'.heap s'.Root
  stack : s'.stack = s.stack.map (.relocate f)
  handles : s'.handles = s.handles.map (Option.map f)
  allocations : s'.allocations = s.allocations + k
  exception : s'.currentException = s.currentException

theorem Built.refl (W : TypeWorld) (e : Option ℕ) (s : ArrayVm) : Built W 0 e id s s where
  carried := (Carried.refl fun _ hroot => hroot).weaken
  stack := by rw [ArrayOperand.relocate_id, map_id]
  handles := by rw [Option.map_id, map_id]
  allocations := rfl
  exception := rfl

theorem Built.trans {e e' : Option ℕ} (h₁ : Built W k e f s s') (h₂ : Built W l e' g s' s'')
    (he : ∀ x, e = some x → e' = some (g x)) : Built W (k + l) e' (g ∘ f) s s'' where
  carried := h₁.carried.trans h₂.carried he
  stack := by rw [h₂.stack, h₁.stack, map_map, ArrayOperand.relocate_comp]
  handles := by rw [h₂.handles, h₁.handles, map_map, Option.map_comp_map]
  allocations := by rw [h₂.allocations, h₁.allocations, Nat.add_assoc]
  exception := h₂.exception.trans h₁.exception

theorem root_map (hstack : s'.stack = s.stack.map (.relocate f))
    (hhandles : s'.handles = s.handles.map (Option.map f)) (hnull : f 0 = 0)
    (hinjective : Function.Injective f) {a : ℕ} (ha : s.Root a) : s'.Root (f a) := by
  constructor
  · intro heq
    exact ha.1 (hinjective (heq.trans hnull.symm))
  · rw [hstack, hhandles]
    apply ha.2.imp
    · intro hmem
      exact mem_map.mpr ⟨_, hmem, rfl⟩
    · intro hmem
      exact mem_map.mpr ⟨some a, hmem, rfl⟩

theorem free_of_map (hhandles : s'.handles = s.handles.map (Option.map f)) :
    free s'.handles = free s.handles := by
  rw [hhandles, free_map]

theorem collect_built (env : W.Allocator) (s : ArrayVm) :
    Built W 1 none (env.motion s).move s (env.collect s) where
  carried := by
    apply carried_compact (env.keeps s)
    intro a ha
    exact root_map rfl rfl (env.motion s).null (env.motion s).injective ha
  stack := rfl
  handles := rfl
  allocations := rfl
  exception := rfl

/-- An array is made behind all others. -/
theorem createArray1D_spec {r : ClassRef} {n : ℕ} (hdims : r.dims ≠ 0)
    (hmemory : env.refuses s.allocations = false) (hfits : TypeWorld.Allocator.Fits W r n) :
    ∃ a s' f, env.createArray1D r n s = .ok (a, s') ∧ Built W 1 none f s s' ∧ a ≠ 0 ∧
      get s'.heap a = some ⟨r, List.replicate n 0⟩ ∧
      ∀ b, Reached W.holdsReferences s.heap s.Root b → f b ≠ a := by
  obtain ⟨hzero, hfree⟩ := env.free s
  have hcollect := collect_built env s
  have hcreate : env.createArray1D r n s = .ok (env.place s, { env.collect s with
      heap := set (env.collect s).heap (env.place s) ⟨r, List.replicate n 0⟩ }) := by
    unfold TypeWorld.Allocator.createArray1D
    rw [if_neg hdims, hmemory, if_neg Bool.false_ne_true, if_neg (not_not.mpr hfits)]
  refine ⟨_, _, (env.motion s).move, hcreate, ?_, hzero, get_set_self .., ?_⟩
  · refine ⟨?_, rfl, rfl, rfl, rfl⟩
    exact hcollect.carried.trans (carried_place hfree _) nofun
  · intro b hb heq
    obtain ⟨c, hc⟩ := hb.cell
    have hnew := hcollect.carried.cells b c hb nofun hc
    rw [heq] at hnew
    cases hfree.symm.trans hnew

theorem createArray1D_ok {r : ClassRef} {n a : ℕ}
    (h : env.createArray1D r n s = .ok (a, s')) (hcalm : s'.currentException = none) :
    s.currentException = none ∧ env.refuses s.allocations = false ∧
      TypeWorld.Allocator.Fits W r n := by
  unfold TypeWorld.Allocator.createArray1D at h
  split at h
  · cases h
  split at h
  · cases h
    cases hcalm
  rename_i hmemory
  split at h
  · cases h
  rename_i hfits
  cases h
  exact ⟨hcalm, Bool.eq_false_iff.mpr hmemory, not_not.mp hfits⟩

/-! ### The loop -/

def MakesTree (W : TypeWorld) (create : ArrayVm → Except Crash (ℕ × ArrayVm)) (cs : List ℕ)
    (r : ClassRef) (n : ℕ) (s : ArrayVm) : Prop :=
  ∃ a s' f nodes, create s = .ok (a, s') ∧ Built W (treeArrays cs n) none f s s' ∧
    ArrayTree s'.heap cs r n a nodes ∧ nodes.Nodup ∧
    ∀ x, Reached W.holdsReferences s.heap s.Root x → f x ∉ nodes

/-- The array of a handle while its elements are made: some are there and `m` are not. -/
structure Filling (s : ArrayVm) (slot : ℕ) (cs : List ℕ) (r : ClassRef) (c a m : ℕ) (subs : List ℕ)
    (subnodes : List (List ℕ)) : Prop where
  held : s.handles[slot]? = some (some a)
  ne_zero : a ≠ 0
  cell : get s.heap a = some ⟨r, subs ++ List.replicate m 0⟩
  trees : List.Forall₂ (ArrayTree s.heap cs ⟨r.base, r.dims - 1⟩ c) subs subnodes
  nodup : (a :: subnodes.flatten).Nodup

variable {slot c a m : ℕ} {cs subs : List ℕ} {r : ClassRef} {subnodes : List (List ℕ)}

theorem obj_of_slot (hheld : s.handles[slot]? = some (some a)) : s.obj (.slot slot) = a := by
  show (s.handles[slot]?.join).getD 0 = a
  rw [hheld]
  rfl

namespace Filling

theorem root (hf : Filling s slot cs r c a m subs subnodes) :
    Reached W.holdsReferences s.heap s.Root a :=
  .root ⟨hf.ne_zero, .inr (mem_of_getElem? hf.held)⟩ hf.cell

theorem reached (hf : Filling s slot cs r c a m subs subnodes) (hdims : cs.length + 1 < r.dims) :
    ∀ x ∈ subnodes.flatten, Reached W.holdsReferences s.heap s.Root x := by
  have hrefs : W.holdsReferences r = true := holdsReferences_of_lt (by omega)
  intro x hx
  obtain ⟨ns, hns, hx⟩ := mem_flatten.mp hx
  obtain ⟨j, hj, rfl⟩ := mem_iff_getElem.mp hns
  have hj' : j < subs.length := hf.trees.length_eq ▸ hj
  have htree := hf.trees.get hj' hj
  obtain ⟨d, hd⟩ := htree.cell
  have hmem := mem_append_left (List.replicate m 0) (get_mem subs ⟨j, hj'⟩)
  have hreached := Reached.field hf.root hf.cell hrefs hmem htree.ne_zero hd
  apply htree.reached _ hreached x hx
  show cs.length < r.dims - 1
  omega

/-- The array is moved and nothing else happens to it. -/
theorem moved (hf : Filling s slot cs r c a m subs subnodes) (hdims : cs.length + 1 < r.dims)
    (hbuilt : Built W k none f s s') :
    Filling s' slot cs r c (f a) m (subs.map f) (subnodes.map (List.map f)) := by
  have hrefs : W.holdsReferences r = true := holdsReferences_of_lt (by omega)
  have hnew := hbuilt.carried.cells _ _ hf.root nofun hf.cell
  unfold HeapCell.relocate at hnew
  rw [if_pos hrefs, map_append, map_replicate, hbuilt.carried.null] at hnew
  constructor
  · rw [hbuilt.handles, getElem?_map, hf.held]
    rfl
  · intro heq
    exact hf.ne_zero (hbuilt.carried.injective (heq.trans hbuilt.carried.null.symm))
  · exact hnew
  · apply forall₂_carried (e := none) _ hf.root hf.cell hrefs hf.trees
    · exact fun b hb => mem_append_left _ hb
    · exact fun x _ => nofun
    · intro b ns htree hb hns
      apply htree.carried hbuilt.carried _ hb hns
      show cs.length < r.dims - 1
      omega
  · rw [← map_flatten, ← map_cons]
    exact hf.nodup.map hbuilt.carried.injective

/-- The next element is stored. -/
theorem store (hf : Filling s slot cs r c a (m + 1) subs subnodes) {b : ℕ} {nodes : List ℕ}
    (htree : ArrayTree s.heap cs ⟨r.base, r.dims - 1⟩ c b nodes)
    (hnodup : nodes.Nodup) (hfresh : ∀ x ∈ a :: subnodes.flatten, x ∉ nodes) :
    ∃ s', s.store (.slot slot) subs.length b = .ok s' ∧ Built W 0 (some a) id s s' ∧
      Filling s' slot cs r c a m (subs ++ [b]) (subnodes ++ [nodes]) := by
  have hlt : subs.length < (subs ++ List.replicate (m + 1) 0).length := by
    rw [length_append, length_replicate]
    omega
  have hset : (subs ++ List.replicate (m + 1) 0).set subs.length b =
      subs ++ [b] ++ List.replicate m 0 := by
    rw [set_append_right _ _ le_rfl, Nat.sub_self, replicate_succ, set_cons_zero, append_assoc]
    rfl
  have hnull : (subs ++ List.replicate (m + 1) 0)[subs.length]? = some 0 := by
    rw [getElem?_append_right le_rfl, Nat.sub_self, replicate_succ]
    rfl
  have hstore : s.store (.slot slot) subs.length b = .ok { s with
      heap := set s.heap a ⟨r, (subs ++ List.replicate (m + 1) 0).set subs.length b⟩ } := by
    unfold ArrayVm.store
    rw [obj_of_slot hf.held, if_neg hf.ne_zero, hf.cell]
    dsimp only
    rw [if_pos hlt]
  refine ⟨_, hstore, ⟨carried_write hf.cell hnull b, ?_, ?_, rfl, rfl⟩, hf.held, hf.ne_zero, ?_, ?_,
    ?_⟩
  · rw [ArrayOperand.relocate_id, map_id]
  · rw [Option.map_id, map_id]
  · rw [← hset]
    exact get_set_self ..
  · apply rel_append
    · apply forall₂_set (fun ht hx => ht.set hx _) hf.trees
      exact (nodup_cons.mp hf.nodup).1
    · exact .cons (htree.set (hfresh a mem_cons_self) _) .nil
  · rw [flatten_append, flatten_cons, flatten_nil, append_nil, ← cons_append]
    apply hf.nodup.append hnodup
    exact fun x hx => hfresh x hx

end Filling

variable {sub : ArrayVm → Except Crash (ℕ × ArrayVm)}

/-- One round of the loop. -/
theorem Filling.round
    (hf : Filling s slot cs r c a (m + 1) subs subnodes) (hdims : cs.length + 1 < r.dims)
    (hmakes : MakesTree W sub cs ⟨r.base, r.dims - 1⟩ c s) :
    ∃ b s' s'' f nodes, sub s = .ok (b, s') ∧ b ≠ 0 ∧
      s'.store (.slot slot) subs.length b = .ok s'' ∧
      Built W (treeArrays cs c) (some (f a)) f s s'' ∧
      Filling s'' slot cs r c (f a) m (subs.map f ++ [b]) (subnodes.map (List.map f) ++ [nodes]) ∧
      ∀ x, Reached W.holdsReferences s.heap s.Root x → x ∉ a :: subnodes.flatten →
        f x ∉ f a :: (subnodes.map (List.map f) ++ [nodes]).flatten := by
  obtain ⟨b, s', f, nodes, hsub, hbuilt, htree, hnodup, hfresh⟩ := hmakes
  have hmoved := hf.moved hdims hbuilt
  obtain ⟨s'', hstore, hwritten, hnext⟩ := hmoved.store htree hnodup (by
    intro x hx
    rw [← map_flatten, ← map_cons] at hx
    obtain ⟨y, hy, rfl⟩ := mem_map.mp hx
    rcases mem_cons.mp hy with rfl | hy
    · exact hfresh _ hf.root
    · exact hfresh y (hf.reached hdims y hy))
  rw [length_map] at hstore
  refine ⟨b, s', s'', f, nodes, hsub, htree.ne_zero, hstore, hbuilt.trans hwritten nofun, hnext, ?_⟩
  intro x hx hnew
  rw [flatten_append, flatten_singleton, ← cons_append, ← map_flatten,
    ← map_cons, mem_append, mem_map_of_injective hbuilt.carried.injective, not_or]
  exact ⟨hnew, hfresh x hx⟩

/-- The loop makes the missing elements. -/
theorem fillLoop_spec (hsub : ∀ t, Buildable env cs ⟨r.base, r.dims - 1⟩ c t →
      MakesTree W sub cs ⟨r.base, r.dims - 1⟩ c t)
    (hf : Filling s slot cs r c a m subs subnodes) (hdims : cs.length + 1 < r.dims)
    (hmemory : ∀ k < m * treeArrays cs c, env.refuses (s.allocations + k) = false)
    (hready : m ≠ 0 → treeHandles cs c ≤ free s.handles ∧ TreeFits W cs ⟨r.base, r.dims - 1⟩ c) :
    ∃ s' f subs' subnodes', ArrayVm.fillLoop sub (.slot slot) m subs.length s = .ok (true, s') ∧
      Built W (m * treeArrays cs c) (some (f a)) f s s' ∧
      Filling s' slot cs r c (f a) 0 subs' subnodes' ∧ subs'.length = subs.length + m ∧
      ∀ x, Reached W.holdsReferences s.heap s.Root x →
        x ∉ a :: subnodes.flatten → f x ∉ f a :: subnodes'.flatten := by
  induction m generalizing s a subs subnodes with
  | zero =>
    refine ⟨s, id, subs, subnodes, rfl, ?_, hf, rfl, fun x _ hx => hx⟩
    rw [Nat.zero_mul]
    exact .refl W _ s
  | succ m ih =>
    obtain ⟨hhandles, hfits⟩ := hready (Nat.succ_ne_zero m)
    rw [Nat.succ_mul] at hmemory ⊢
    have hmakes := hsub s ⟨fun k hk => hmemory k (by omega), hhandles, hfits⟩
    obtain ⟨b, s', t, f, nodes, hcall, hb, hstore, hbuilt, hnext, hfresh⟩ := hf.round hdims hmakes
    obtain ⟨u, g, subs', subnodes', hloop, hrest, hdone, hlength, hrestFresh⟩ := ih hnext
      (by
        intro k hk
        rw [hbuilt.allocations, Nat.add_assoc]
        exact hmemory _ (by omega))
      (by
        intro _
        rw [free_of_map hbuilt.handles]
        exact ⟨hhandles, hfits⟩)
    rw [length_append, length_map] at hloop hlength
    refine ⟨u, g ∘ f, subs', subnodes', ?_, ?_, hdone, ?_, ?_⟩
    · unfold ArrayVm.fillLoop
      rw [hcall]
      show (if b = 0 then _ else _) = _
      rw [if_neg hb, hstore]
      exact hloop
    · rw [Nat.add_comm]
      apply hbuilt.trans hrest
      intro x hx
      rw [Option.some.inj hx]
    · rw [hlength, length_singleton]
      omega
    · intro x hx hnew
      exact hrestFresh _ (hbuilt.carried.reached x hx) (hfresh x hx hnew)

/-- `CreateArray` makes the tree if nothing stands in its way. -/
theorem createArray_spec {n : ℕ} (hready : Buildable env cs r n s) (hdims : cs.length < r.dims) :
    MakesTree W (ArrayVm.createArray env cs r n) cs r n s := by
  induction cs generalizing r n s with
  | nil =>
    have hmemory := hready.memory 0 Nat.zero_lt_one
    obtain ⟨a, s', f, hcreate, hbuilt, hzero, hcell, hfresh⟩ :=
      createArray1D_spec (Nat.ne_of_gt hdims) hmemory hready.fits
    refine ⟨a, s', f, [a], hcreate, hbuilt, ⟨hzero, hcell, rfl⟩, nodup_singleton a, ?_⟩
    intro x hx hmem
    exact hfresh x hx (mem_singleton.mp hmem)
  | cons c cs ih =>
    rw [length_cons] at hdims
    obtain ⟨hmemory, hhandles, hfits, hsubfits⟩ := hready
    unfold treeArrays at hmemory
    unfold treeHandles at hhandles
    have hfirst := hmemory 0 (by omega)
    obtain ⟨a, s₁, f, hcreate, hbuilt, hzero, hcell, hfresh⟩ :=
      createArray1D_spec (by omega) hfirst hfits
    have hfree := free_of_map hbuilt.handles
    obtain ⟨handles, slot, hfill⟩ : ∃ handles i, fill s₁.handles a = some (handles, i) :=
      fill_of_free (by omega) a
    have hslots := free_fill hfill
    have hheld (x : ℕ) (hx : s₁.Root x) : ArrayVm.Root { s₁ with handles := handles } x := by
      refine ⟨hx.1, hx.2.imp_right ?_⟩
      intro hmem
      obtain ⟨j, hj⟩ := mem_iff_getElem?.mp hmem
      exact mem_of_getElem? (fill_occupied hfill hj).2
    have hfilling : Filling { s₁ with handles := handles } slot cs r c a n [] [] :=
      ⟨fill_self hfill, hzero, hcell, .nil, nodup_singleton a⟩
    have hsub (t : ArrayVm) (ht : Buildable env cs ⟨r.base, r.dims - 1⟩ c t) :
        MakesTree W (ArrayVm.createArray env cs ⟨r.base, r.dims - 1⟩ c) cs ⟨r.base, r.dims - 1⟩ c
          t :=
      ih ht (by show cs.length < r.dims - 1; omega)
    obtain ⟨s₂, g, subs, subnodes, hloop, hloopBuilt, hdone, hlength, hloopFresh⟩ :=
      fillLoop_spec hsub hfilling hdims
        (by
          intro k hk
          show env.refuses (s₁.allocations + k) = false
          rw [hbuilt.allocations, Nat.add_assoc]
          exact hmemory _ (by omega))
        (by
          intro hn
          rw [if_neg hn] at hhandles
          refine ⟨?_, hsubfits hn⟩
          show _ ≤ free handles
          omega)
    have hcarried := (hbuilt.carried.trans (Carried.refl hheld) nofun).trans hloopBuilt.carried
      nofun
    have hrestored : (s₂.dropHandle (.slot slot)).handles =
        s.handles.map (Option.map (g ∘ f)) := by
      show drop s₂.handles slot = _
      rw [hloopBuilt.handles, drop_map, drop_fill hfill, hbuilt.handles,
        map_map, Option.map_comp_map]
    have hstack : (s₂.dropHandle (.slot slot)).stack = s.stack.map (.relocate (g ∘ f)) := by
      show s₂.stack = _
      rw [hloopBuilt.stack]
      show s₁.stack.map _ = _
      rw [hbuilt.stack, map_map, ArrayOperand.relocate_comp]
    refine ⟨g a, s₂.dropHandle (.slot slot), g ∘ f, g a :: subnodes.flatten, ?_, ?_, ?_,
      hdone.nodup, ?_⟩
    · have hhandle : s₁.makeHandle a = .ok (.slot slot, { s₁ with handles := handles }) := by
        unfold ArrayVm.makeHandle
        rw [if_neg hzero, hfill]
      unfold ArrayVm.createArray
      rw [hcreate, Outcome.ok_bind]
      dsimp only
      rw [hhandle, Outcome.ok_bind]
      dsimp only
      rw [length_nil] at hloop
      rw [hloop, Outcome.ok_bind]
      show Except.ok (s₂.obj (.slot slot), _) = _
      rw [obj_of_slot hdone.held]
    · refine ⟨?_, hstack, hrestored, ?_, hloopBuilt.exception.trans hbuilt.exception⟩
      · apply hcarried.forget (fun _ hx => hx)
        · intro x hx
          exact root_map hstack hrestored hcarried.null hcarried.injective hx
        · intro x hx heq
          exact hfresh x hx (hloopBuilt.carried.injective (Option.some.inj heq))
      · show s₂.allocations = s.allocations + (1 + n * treeArrays cs c)
        rw [hloopBuilt.allocations]
        show s₁.allocations + _ = _
        rw [hbuilt.allocations, Nat.add_assoc]
    · have hcell' := hdone.cell
      rw [replicate_zero, append_nil] at hcell'
      rw [length_nil, Nat.zero_add] at hlength
      exact ⟨hdone.ne_zero, subs, subnodes, hlength, hcell', hdone.trees, rfl⟩
    · intro x hx
      apply hloopFresh (f x) ((hbuilt.carried.reached x hx).mono hheld)
      intro hmem
      exact hfresh x hx (mem_singleton.mp hmem)

/-! ### Calls that leave no exception -/

theorem store_frame {arr : JavaHandle} {i b : ℕ} (h : s.store arr i b = .ok s') :
    s'.allocations = s.allocations ∧ s'.currentException = s.currentException := by
  unfold ArrayVm.store at h
  split at h
  · cases h
  split at h
  · cases h
  split at h
  · cases h
    exact ⟨rfl, rfl⟩
  · cases h

theorem makeHandle_frame {arr : JavaHandle} (h : s.makeHandle a = .ok (arr, s')) :
    s'.allocations = s.allocations ∧ s'.currentException = s.currentException ∧
      (a ≠ 0 → free s.handles = free s'.handles + 1) := by
  unfold ArrayVm.makeHandle at h
  split at h
  · rename_i ha
    cases h
    exact ⟨rfl, rfl, fun hne => absurd ha hne⟩
  split at h
  · rename_i hfill
    cases h
    exact ⟨rfl, rfl, fun _ => free_fill hfill⟩
  · cases h

theorem fillLoop_calm {arr : JavaHandle} {i : ℕ}
    {done : Bool} (hsub : ∀ t, Buildable env cs r c t → MakesTree W sub cs r c t)
    (hcalm : ∀ t b t', sub t = .ok (b, t') → t'.currentException = none →
      t.currentException = none ∧ Buildable env cs r c t)
    (h : ArrayVm.fillLoop sub arr m i s = .ok (done, s')) (hend : s'.currentException = none) :
    s.currentException = none ∧
      (∀ k < m * treeArrays cs c, env.refuses (s.allocations + k) = false) ∧
      (m ≠ 0 → treeHandles cs c ≤ free s.handles ∧ TreeFits W cs r c) := by
  induction m generalizing s i with
  | zero =>
    cases h
    exact ⟨hend, fun k hk => absurd hk (by omega), fun hm => absurd rfl hm⟩
  | succ m ih =>
    unfold ArrayVm.fillLoop at h
    obtain ⟨⟨b, t⟩, hcall, hrest⟩ := Outcome.bind_eq_ok.mp h
    dsimp only at hrest
    split at hrest
    · rename_i hb
      cases hrest
      -- the call has made an array all the same
      obtain ⟨-, hready⟩ := hcalm _ _ _ hcall hend
      obtain ⟨b', t', f, nodes, hcall', -, htree, -, -⟩ := hsub s hready
      cases hcall.symm.trans hcall'
      exact absurd hb htree.ne_zero
    obtain ⟨u, hstore, hloop⟩ := Outcome.bind_eq_ok.mp hrest
    obtain ⟨hcalmU, hmemory, -⟩ := ih hloop
    obtain ⟨hallocations, hexception⟩ := store_frame hstore
    obtain ⟨hcalmS, hready⟩ := hcalm _ _ _ hcall (hexception.symm.trans hcalmU)
    obtain ⟨b', t', f, nodes, hcall', hbuilt, -, -, -⟩ := hsub s hready
    cases hcall.symm.trans hcall'
    refine ⟨hcalmS, ?_, fun _ => ⟨hready.handles, hready.fits⟩⟩
    intro k hk
    rw [Nat.succ_mul] at hk
    by_cases hlt : k < treeArrays cs c
    · exact hready.memory k hlt
    · have hlater := hmemory (k - treeArrays cs c) (by omega)
      rw [hallocations, hbuilt.allocations] at hlater
      rw [← hlater]
      congr 1
      omega

/-- If there is no exception in the end, there was none before, and the tree could be built. -/
theorem createArray_calm {n : ℕ} (h : ArrayVm.createArray env cs r n s = .ok (a, s'))
    (hend : s'.currentException = none) (hdims : cs.length < r.dims) :
    s.currentException = none ∧ Buildable env cs r n s := by
  induction cs generalizing r n s a s' with
  | nil =>
    obtain ⟨hcalm, hmemory, hfits⟩ := createArray1D_ok h hend
    refine ⟨hcalm, ?_, Nat.zero_le _, hfits⟩
    intro k hk
    obtain rfl : k = 0 := Nat.lt_one_iff.mp hk
    exact hmemory
  | cons c cs ih =>
    rw [length_cons] at hdims
    have hlower : cs.length < (⟨r.base, r.dims - 1⟩ : ClassRef).dims := by
      show cs.length < r.dims - 1
      omega
    unfold ArrayVm.createArray at h
    obtain ⟨⟨array, s₁⟩, hcreate, h⟩ := Outcome.bind_eq_ok.mp h
    obtain ⟨⟨arr, s₂⟩, hhandle, h⟩ := Outcome.bind_eq_ok.mp h
    obtain ⟨⟨done, s₃⟩, hloop, h⟩ := Outcome.bind_eq_ok.mp h
    cases h
    have hcalm₃ : s₃.currentException = none := by
      cases arr with
      | null => exact hend
      | slot i => exact hend
    obtain ⟨hcalm₂, hmemory, hready⟩ := fillLoop_calm (fun t ht => createArray_spec ht hlower)
      (fun t b t' hcall hcalm => ih hcall hcalm hlower) hloop hcalm₃
    obtain ⟨hallocations, hexception, hslots⟩ := makeHandle_frame hhandle
    obtain ⟨hcalm, hfirst, hfits⟩ := createArray1D_ok hcreate (hexception.symm.trans hcalm₂)
    obtain ⟨array', s₁', f, hcreate', hbuilt, hzero, -, -⟩ :=
      createArray1D_spec (by omega) hfirst hfits
    cases hcreate.symm.trans hcreate'
    have hfilled := hslots hzero
    have hfree := free_of_map hbuilt.handles
    refine ⟨hcalm, ?_, ?_, hfits, fun hn => (hready hn).2⟩
    · intro k hk
      unfold treeArrays at hk
      cases k with
      | zero => exact hfirst
      | succ k =>
        have hlater := hmemory k (by omega)
        rw [hallocations, hbuilt.allocations, Nat.add_assoc, Nat.add_comm 1 k] at hlater
        exact hlater
    · unfold treeHandles
      split
      · omega
      · rename_i hn
        have hrest := (hready hn).1
        omega

end Building

end TraceJvm
