import TraceJvm.Lib.OrderedMap

/-! A heap of tagged cells whose objects a collector moves, and what is left of the reachable ones.
The address 0 is null. -/
namespace MovingHeap

open OrderedMap List

structure HeapCell (α : Type*) where
  tag : α
  fields : List ℕ
  deriving DecidableEq

abbrev Heap (α : Type*) := List (ℕ × HeapCell α)

variable {α : Type*}

/-- The cell with its references changed; `refs` are the tags of the cells that have some. -/
def HeapCell.relocate (refs : α → Bool) (f : ℕ → ℕ) (c : HeapCell α) : HeapCell α :=
  if refs c.tag then { c with fields := c.fields.map f } else c

inductive Reached (refs : α → Bool) (h : Heap α) (roots : ℕ → Prop) : ℕ → Prop where
  | root {a : ℕ} {c : HeapCell α} : roots a → get h a = some c → Reached refs h roots a
  | field {a b : ℕ} {c d : HeapCell α} : Reached refs h roots a → get h a = some c →
      refs c.tag = true → b ∈ c.fields → b ≠ 0 → get h b = some d → Reached refs h roots b

structure Motion where
  move : ℕ → ℕ
  keeps : ℕ → Bool
  null : move 0 = 0
  injective : Function.Injective move

def Heap.compact (refs : α → Bool) (m : Motion) (h : Heap α) : Heap α :=
  (h.filter fun p => m.keeps p.1).map fun p => (m.move p.1, p.2.relocate refs m.move)

/-- All that could be reached is found again at its new address, unchanged but for the cell that is
now at `changed`. -/
structure Carried (refs : α → Bool) (changed : Option ℕ) (f : ℕ → ℕ) (h : Heap α)
    (roots : ℕ → Prop) (h' : Heap α) (roots' : ℕ → Prop) : Prop where
  null : f 0 = 0
  injective : Function.Injective f
  reached : ∀ a, Reached refs h roots a → Reached refs h' roots' (f a)
  cells : ∀ a c, Reached refs h roots a → some (f a) ≠ changed → get h a = some c →
    get h' (f a) = some (c.relocate refs f)

variable {refs : α → Bool} {h h' h'' : Heap α} {roots roots' roots'' : ℕ → Prop} {f g : ℕ → ℕ}
  {e e' : Option ℕ} {a b : ℕ} {c d : HeapCell α}

@[simp] theorem HeapCell.relocate_tag (f : ℕ → ℕ) (c : HeapCell α) :
    (c.relocate refs f).tag = c.tag := by
  unfold relocate
  split
  · rfl
  · rfl

theorem HeapCell.relocate_comp (f g : ℕ → ℕ) (c : HeapCell α) :
    (c.relocate refs f).relocate refs g = c.relocate refs (g ∘ f) := by
  unfold relocate
  by_cases hrefs : refs c.tag = true
  · rw [if_pos hrefs, if_pos hrefs, if_pos hrefs, map_map]
  · rw [if_neg hrefs, if_neg hrefs, if_neg hrefs]

theorem HeapCell.relocate_id (c : HeapCell α) : c.relocate refs id = c := by
  unfold relocate
  rw [map_id]
  exact ite_self c

theorem HeapCell.mem_relocate (hrefs : refs c.tag = true) (hb : b ∈ c.fields) :
    f b ∈ (c.relocate refs f).fields := by
  unfold relocate
  rw [if_pos hrefs]
  exact mem_map_of_mem hb

theorem Reached.mono (hroots : ∀ a, roots a → roots' a) (ha : Reached refs h roots a) :
    Reached refs h roots' a := by
  induction ha with
  | root hroot hcell => exact .root (hroots _ hroot) hcell
  | field _ hcell hrefs hmem hne hd ih => exact .field ih hcell hrefs hmem hne hd

theorem Reached.cell (ha : Reached refs h roots a) : ∃ c, get h a = some c := by
  cases ha with
  | root _ hcell => exact ⟨_, hcell⟩
  | field _ _ _ _ _ hcell => exact ⟨_, hcell⟩

theorem get_compact {m : Motion} (hkeeps : m.keeps a = true) :
    get (Heap.compact refs m h) (m.move a) = (get h a).map (HeapCell.relocate refs m.move) := by
  induction h with
  | nil => rfl
  | cons p h ih =>
    obtain ⟨b, c⟩ := p
    unfold Heap.compact at ih ⊢
    rw [filter_cons]
    by_cases hb : b = a
    · subst hb
      rw [if_pos hkeeps, map_cons]
      show (if m.move b = m.move b then _ else _) = Option.map _ (if b = b then _ else _)
      rw [if_pos rfl, if_pos rfl]
      rfl
    · have hmove : m.move b ≠ m.move a := fun heq => hb (m.injective heq)
      show _ = Option.map _ (if b = a then _ else OrderedMap.get h a)
      rw [if_neg hb, ← ih]
      split
      · rw [map_cons]
        show (if m.move b = m.move a then _ else _) = _
        rw [if_neg hmove]
      · rfl

namespace Carried

theorem trans (h₁ : Carried refs e f h roots h' roots')
    (h₂ : Carried refs e' g h' roots' h'' roots'') (he : ∀ x, e = some x → e' = some (g x)) :
    Carried refs e' (g ∘ f) h roots h'' roots'' := by
  constructor
  · show g (f 0) = 0
    rw [h₁.null, h₂.null]
  · exact h₂.injective.comp h₁.injective
  · intro a ha
    exact h₂.reached _ (h₁.reached a ha)
  · intro a c ha hne hcell
    have hne' : some (f a) ≠ e := by
      intro heq
      exact hne (he _ heq.symm).symm
    rw [← HeapCell.relocate_comp]
    exact h₂.cells _ _ (h₁.reached a ha) hne (h₁.cells a c ha hne' hcell)

theorem weaken (h₁ : Carried refs none f h roots h' roots') :
    Carried refs e f h roots h' roots' :=
  { h₁ with cells := fun a c ha _ => h₁.cells a c ha nofun }

theorem of_cells (hnull : f 0 = 0) (hinjective : Function.Injective f)
    (hroots : ∀ a, roots a → roots' (f a))
    (hcells : ∀ a c, Reached refs h roots a → get h a = some c →
      get h' (f a) = some (c.relocate refs f)) : Carried refs none f h roots h' roots' := by
  constructor
  · exact hnull
  · exact hinjective
  · intro a ha
    induction ha with
    | root hroot hcell =>
      exact .root (hroots _ hroot) (hcells _ _ (.root hroot hcell) hcell)
    | field ha hcell hrefs hmem hne hd ih =>
      have hnew := hcells _ _ (.field ha hcell hrefs hmem hne hd) hd
      apply Reached.field ih (hcells _ _ ha hcell) _ (HeapCell.mem_relocate hrefs hmem) _ hnew
      · rw [HeapCell.relocate_tag]
        exact hrefs
      · intro hzero
        exact hne (hinjective (hzero.trans hnull.symm))
  · intro a c ha _ hcell
    exact hcells a c ha hcell

theorem forget (h₁ : Carried refs e f h roots h' roots') {fewer fewer' : ℕ → Prop}
    (hfewer : ∀ a, fewer a → roots a) (hfewer' : ∀ a, fewer a → fewer' (f a))
    (hcells : ∀ a, Reached refs h fewer a → some (f a) ≠ e) :
    Carried refs none f h fewer h' fewer' := by
  apply of_cells h₁.null h₁.injective hfewer'
  intro a c ha hcell
  exact h₁.cells a c (ha.mono hfewer) (hcells a ha) hcell

theorem refl (hroots : ∀ a, roots a → roots' a) : Carried refs none id h roots h roots' := by
  apply of_cells rfl Function.injective_id hroots
  intro a c _ hcell
  rw [HeapCell.relocate_id]
  exact hcell

end Carried

theorem carried_compact {m : Motion} (hkeeps : ∀ a, Reached refs h roots a → m.keeps a = true)
    (hroots : ∀ a, roots a → roots' (m.move a)) :
    Carried refs none m.move h roots (h.compact refs m) roots' := by
  apply Carried.of_cells m.null m.injective hroots
  intro a c ha hcell
  rw [get_compact (hkeeps a ha), hcell]
  rfl

theorem carried_place (hfree : get h a = none) (c : HeapCell α) :
    Carried refs none id h roots (set h a c) roots := by
  apply Carried.of_cells rfl Function.injective_id fun _ hroot => hroot
  intro b d _ hcell
  have hne : a ≠ b := by
    rintro rfl
    rw [hfree] at hcell
    cases hcell
  rw [HeapCell.relocate_id, id, get_set_of_ne hne, hcell]

/-- A null field is overwritten. -/
theorem carried_write {i : ℕ} (hcell : get h a = some c) (hnull : c.fields[i]? = some 0) (v : ℕ) :
    Carried refs (some a) id h roots (set h a { c with fields := c.fields.set i v }) roots := by
  have hpresent (b : ℕ) (d : HeapCell α) (hd : get h b = some d) :
      ∃ d', get (set h a { c with fields := c.fields.set i v }) b = some d' := by
    rw [get_set]
    split
    · exact ⟨_, rfl⟩
    · exact ⟨d, hd⟩
  constructor
  · rfl
  · exact Function.injective_id
  · intro b hb
    induction hb with
    | root hroot hd =>
      obtain ⟨d', hd'⟩ := hpresent _ _ hd
      exact .root hroot hd'
    | @field x y x' y' _ hx hrefs hmem hne hy ih =>
      obtain ⟨d', hd'⟩ := hpresent _ _ hy
      by_cases heq : a = x
      · subst heq
        cases hcell.symm.trans hx
        refine Reached.field ih (get_set_self ..) hrefs ?_ hne hd'
        obtain ⟨j, hj⟩ := mem_iff_getElem?.mp hmem
        have hij : i ≠ j := by
          rintro rfl
          rw [hnull] at hj
          exact hne (Option.some.inj hj).symm
        apply mem_iff_getElem?.mpr
        refine ⟨j, ?_⟩
        show (c.fields.set i v)[j]? = some y
        rw [getElem?_set_ne hij, hj]
      · exact .field ih ((get_set_of_ne heq).trans hx) hrefs hmem hne hd'
  · intro b d _ hne hb
    have hab : a ≠ b := by
      rintro rfl
      exact hne rfl
    rw [HeapCell.relocate_id, id, get_set_of_ne hab, hb]

end MovingHeap
