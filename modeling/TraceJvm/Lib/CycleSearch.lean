import Mathlib.Data.List.Basic
import Mathlib.Logic.Relation

/-! Depth-first search for a cycle, with a mark on the vertices from which the search goes on. -/
inductive SearchMark where
  | unseen
  | entered
  | finished
  deriving DecidableEq

namespace CycleSearch

open Function List

variable {α : Type*}

/-- The edges of one vertex, given the search from a vertex. -/
def scan (search : α → (α → SearchMark) → Option (Bool × (α → SearchMark))) :
    List α → (α → SearchMark) → Option (Bool × (α → SearchMark))
  | [], marks => some (false, marks)
  | next :: rest, marks =>
    match marks next with
    | .unseen =>
      match search next marks with
      | none => none
      | some (true, marks) => some (true, marks)
      | some (false, marks) => scan search rest marks
    | .entered => some (true, marks)
    | .finished => scan search rest marks

/-- Whether a cycle has been found, and the marks afterwards; `none` if the fuel runs out. -/
def search [DecidableEq α] (succ : α → List α) :
    ℕ → α → (α → SearchMark) → Option (Bool × (α → SearchMark))
  | 0, _, _ => none
  | fuel + 1, i, marks =>
    match scan (search succ fuel) (succ i) (update marks i .entered) with
    | none => none
    | some (true, marks) => some (true, marks)
    | some (false, marks) => some (false, update marks i .finished)

def Edge (succ : α → List α) (a b : α) : Prop := b ∈ succ a

/-- No path from the vertex goes on for ever. -/
abbrev Ends (succ : α → List α) : α → Prop := Acc fun b a => Edge succ a b

variable {succ : α → List α} {marks marks' : α → SearchMark} {i : α} {fuel : ℕ}
  {vertices : List α}

/-- No path leads from a vertex of which all paths end back to it. -/
theorem Ends.not_cycle {a : α} (h : Ends succ a) : ¬ Relation.TransGen (Edge succ) a a := by
  induction h with
  | intro a _ ih =>
    intro hcycle
    obtain ⟨b, hab, hba⟩ := Relation.TransGen.head'_iff.mp hcycle
    exact ih b hab (Relation.TransGen.tail' hba hab)

theorem Ends.of_reach {a b : α} (h : Ends succ a) (hr : Relation.ReflTransGen (Edge succ) a b) :
    Ends succ b := by
  induction hr with
  | refl => exact h
  | tail _ hedge ih => exact ih.inv hedge

/-- Where the search stands while it looks at the edges of a vertex: an edge to an entered vertex
closes a cycle. -/
structure Within (succ : α → List α) (marks : α → SearchMark) (i : α) : Prop where
  path : ∀ x, marks x = .entered → Relation.ReflTransGen (Edge succ) x i
  ends : ∀ x, marks x = .finished → Ends succ x

/-- A search without a cycle has finished what it has entered. -/
structure After (succ : α → List α) (marks marks' : α → SearchMark) : Prop where
  keeps : ∀ x, marks x ≠ .unseen → marks' x = marks x
  entered : ∀ x, marks' x = .entered → marks x = .entered
  ends : ∀ x, marks' x = .finished → Ends succ x

/-- A cycle has been found, or all of the vertices `xs` have been finished. -/
inductive Result (succ : α → List α) (marks : α → SearchMark) (xs : List α) :
    Bool × (α → SearchMark) → Prop
  | cycle {last : α → SearchMark} (x : α) : Relation.TransGen (Edge succ) x x →
      Result succ marks xs (true, last)
  | done {last : α → SearchMark} : After succ marks last → (∀ x ∈ xs, last x = .finished) →
      Result succ marks xs (false, last)

theorem Result.cons {next : α} {rest : List α} {r : Bool × (α → SearchMark)}
    (h : After succ marks marks') (hnext : marks' next = .finished)
    (hr : Result succ marks' rest r) : Result succ marks (next :: rest) r := by
  cases hr with
  | cycle x hx => exact .cycle x hx
  | done hafter hrest =>
    refine .done ⟨fun x hx => ?_, fun x hx => h.entered x (hafter.entered x hx), hafter.ends⟩
      (forall_mem_cons.mpr ⟨?_, hrest⟩)
    · have heq := h.keeps x hx
      rw [hafter.keeps x (heq ▸ hx), heq]
    · rw [hafter.keeps next (by rw [hnext]; nofun), hnext]

/-- How many of the vertices have not been seen. -/
def unseen (vertices : List α) (marks : α → SearchMark) : ℕ :=
  (vertices.filter fun x => marks x = .unseen).length

theorem After.unseen_le (h : After succ marks marks') :
    unseen vertices marks' ≤ unseen vertices marks := by
  refine (monotone_filter_right vertices fun x hx => ?_).length_le
  simp only [decide_eq_true_eq] at hx ⊢
  by_contra hne
  exact hne (h.keeps x hne ▸ hx)

theorem unseen_enter [DecidableEq α] (hi : i ∈ vertices) (hmark : marks i = .unseen) :
    unseen vertices (update marks i .entered) < unseen vertices marks := by
  have hsub : List.Sublist (vertices.filter fun x => update marks i .entered x = .unseen)
      (vertices.filter fun x => marks x = .unseen) := by
    refine monotone_filter_right vertices fun x hx => ?_
    simp only [update_apply, decide_eq_true_eq] at hx ⊢
    split_ifs at hx
    exact hx
  refine Nat.lt_of_le_of_ne hsub.length_le fun heq => ?_
  have hmem : i ∈ vertices.filter fun x => marks x = .unseen :=
    mem_filter.mpr ⟨hi, decide_eq_true hmark⟩
  rw [← hsub.eq_of_length heq] at hmem
  simp at hmem

theorem scan_result {f : α → (α → SearchMark) → Option (Bool × (α → SearchMark))}
    (hf : ∀ {next marks}, next ∈ vertices → marks next = .unseen → unseen vertices marks ≤ fuel →
      (∀ x, marks x = .entered → Relation.TransGen (Edge succ) x next) →
      (∀ x, marks x = .finished → Ends succ x) →
      ∃ r, f next marks = some r ∧ Result succ marks [next] r)
    {rest : List α} (hrest : ∀ x ∈ rest, x ∈ vertices ∧ Edge succ i x)
    (hfuel : unseen vertices marks ≤ fuel) (h : Within succ marks i) :
    ∃ r, scan f rest marks = some r ∧ Result succ marks rest r := by
  induction rest generalizing marks with
  | nil => exact ⟨_, rfl, .done ⟨fun _ _ => rfl, fun _ => id, h.ends⟩ nofun⟩
  | cons next rest ih =>
    obtain ⟨⟨hmem, hedge⟩, hrest⟩ := forall_mem_cons.mp hrest
    have hpath : ∀ x, marks x = .entered → Relation.TransGen (Edge succ) x next :=
      fun x hx => Relation.TransGen.tail' (h.path x hx) hedge
    rw [scan]
    cases hmark : marks next with
    | unseen =>
      obtain ⟨r, hr, hresult⟩ := hf hmem hmark hfuel hpath h.ends
      dsimp only
      rw [hr]
      cases hresult with
      | cycle x hx => exact ⟨_, rfl, .cycle x hx⟩
      | done hafter hdone =>
        obtain ⟨r, hr, hresult⟩ := ih hrest (Nat.le_trans hafter.unseen_le hfuel)
          ⟨fun x hx => h.path x (hafter.entered x hx), hafter.ends⟩
        exact ⟨r, hr, hresult.cons hafter (hdone next (mem_singleton_self next))⟩
    | entered => exact ⟨_, rfl, .cycle next (hpath next hmark)⟩
    | finished =>
      obtain ⟨r, hr, hresult⟩ := ih hrest hfuel h
      exact ⟨r, hr, hresult.cons ⟨fun _ _ => rfl, fun _ => id, h.ends⟩ hmark⟩

variable [DecidableEq α]

theorem Within.enter (hpath : ∀ x, marks x = .entered → Relation.TransGen (Edge succ) x i)
    (hends : ∀ x, marks x = .finished → Ends succ x) :
    Within succ (update marks i .entered) i := by
  constructor
  · intro x hx
    by_cases heq : x = i
    · exact heq ▸ .refl
    · rw [update_of_ne heq] at hx
      exact (hpath x hx).to_reflTransGen
  · intro x hx
    by_cases heq : x = i
    · rw [heq, update_self] at hx
      cases hx
    · rw [update_of_ne heq] at hx
      exact hends x hx

theorem After.finish (h : After succ (update marks i .entered) marks')
    (hmark : marks i = .unseen) (hi : Ends succ i) :
    After succ marks (update marks' i .finished) := by
  refine ⟨fun x hx => ?_, fun x hx => ?_, fun x hx => ?_⟩
  · have hne : x ≠ i := fun heq => hx (heq ▸ hmark)
    have hkeep := h.keeps x (by rwa [update_of_ne hne])
    rwa [update_of_ne hne] at hkeep ⊢
  · by_cases heq : x = i
    · rw [heq, update_self] at hx
      cases hx
    · rw [update_of_ne heq] at hx
      have hold := h.entered x hx
      rwa [update_of_ne heq] at hold
  · by_cases heq : x = i
    · exact heq ▸ hi
    · rw [update_of_ne heq] at hx
      exact h.ends x hx

theorem search_result (hclosed : ∀ x ∈ vertices, ∀ y ∈ succ x, y ∈ vertices)
    (hi : i ∈ vertices) (hmark : marks i = .unseen) (hfuel : unseen vertices marks ≤ fuel)
    (hpath : ∀ x, marks x = .entered → Relation.TransGen (Edge succ) x i)
    (hends : ∀ x, marks x = .finished → Ends succ x) :
    ∃ r, search succ fuel i marks = some r ∧ Result succ marks [i] r := by
  induction fuel generalizing i marks with
  | zero =>
    have hpos : 0 < unseen vertices marks :=
      length_pos_of_mem (mem_filter.mpr ⟨hi, decide_eq_true hmark⟩)
    omega
  | succ fuel ih =>
    have hless := unseen_enter hi hmark
    obtain ⟨r, hr, hresult⟩ := scan_result (fun hn hm hu hp he => ih hn hm hu hp he)
      (fun x hx => ⟨hclosed i hi x hx, hx⟩) (by omega) (.enter hpath hends)
    rw [search, hr]
    cases hresult with
    | cycle x hx => exact ⟨_, rfl, .cycle x hx⟩
    | done hafter hdone =>
      have hi' : Ends succ i := ⟨i, fun x hx => hafter.ends x (hdone x hx)⟩
      refine ⟨_, rfl, .done (hafter.finish hmark hi') fun x hx => ?_⟩
      rw [mem_singleton.mp hx, update_self]

/-- The search from a vertex ends. It finds a cycle, or all paths from the vertex end. -/
theorem search_start (succ : α → List α)
    (hclosed : ∀ x ∈ vertices, ∀ y ∈ succ x, y ∈ vertices) (hi : i ∈ vertices) :
    ∃ r, search succ vertices.length i (fun _ => .unseen) = some r ∧
      if r.1 then ∃ x, Relation.TransGen (Edge succ) x x else Ends succ i := by
  have hsearch : ∃ r, search succ vertices.length i (fun _ => .unseen) = some r ∧
      Result succ (fun _ => .unseen) [i] r :=
    search_result hclosed hi rfl (length_filter_le _ _) nofun nofun
  obtain ⟨r, hr, hresult⟩ := hsearch
  refine ⟨r, hr, ?_⟩
  cases hresult with
  | cycle x hx => exact ⟨x, hx⟩
  | done hafter hdone => exact hafter.ends i (hdone i (mem_singleton_self i))

end CycleSearch
