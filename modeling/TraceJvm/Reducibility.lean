import TraceJvm.Lib.CycleSearch
import Mathlib.Data.List.FinRange

/-! `attempt_reduce_cfg`: which edges of a control-flow graph are back edges, and whether the
others form a cycle. -/
namespace TraceJvm

open List

/-- `basic_block`, in a graph of `n` blocks. `isBackedge` has an entry for each of `next`. -/
structure BasicBlock (n : ℕ) where
  next : List (Fin n)
  isBackedge : ℕ → Bool
  idomPre : ℕ
  idomPost : ℕ
  isLoopHeader : Bool

abbrev Cfg (n : ℕ) := Fin n → BasicBlock n

variable {n : ℕ} {g m : Cfg n} {done : List (Fin n × ℕ)}

def queryDominance (dominator dominated : BasicBlock n) : Bool :=
  dominator.idomPre ≤ dominated.idomPre && dominated.idomPost ≤ dominator.idomPost

/-- `b->is_backedge[j] = ...` -/
def setBackedge (m : Cfg n) (i : Fin n) (j : ℕ) (back : Bool) : Cfg n :=
  Function.update m i { m i with isBackedge := Function.update (m i).isBackedge j back }

/-- `next->is_loop_header |= ...` -/
def noteHeader (m : Cfg n) (x : Fin n) (back : Bool) : Cfg n :=
  Function.update m x { m x with isLoopHeader := (m x).isLoopHeader || back }

/-- The body of the loops that mark the back edges. -/
def markEdge (m : Cfg n) (i : Fin n) (j : ℕ) : Cfg n :=
  match (m i).next[j]? with
  | none => m
  | some next =>
    let back := queryDominance (m next) (m i)
    noteHeader (setBackedge m i j back) next back

/-- The indices of the two loops; `next` does not change while they run. -/
def edgeIndices (g : Cfg n) : List (Fin n × ℕ) :=
  (List.finRange n).flatMap fun i => (List.range (g i).next.length).map fun j => (i, j)

def markBackedges (g : Cfg n) : Cfg n :=
  (edgeIndices g).foldl (fun m e => markEdge m e.1 e.2) g

/-- The edges of a block that `forward_edges_form_a_cycle` does not skip. -/
def forwardEdges (g : Cfg n) (i : Fin n) : List (Fin n) :=
  (g i).next.zipIdx.filterMap fun e => if (g i).isBackedge e.2 then none else some e.1

def forwardEdgesFormACycle (g : Cfg n) : ℕ → Fin n → (Fin n → SearchMark) →
    Option (Bool × (Fin n → SearchMark)) :=
  CycleSearch.search (forwardEdges g)

/-- What the function returns, and the graph that it leaves; `none` if the search goes deeper
than there are blocks. -/
def attemptReduceCfg (g : Cfg (n + 1)) : Option (ℕ × Cfg (n + 1)) :=
  let g := markBackedges g
  (forwardEdgesFormACycle g (n + 1) 0 fun _ => .unseen).map fun r => (if r.1 then 1 else 0, g)

/-! ### Dominance -/

/-- The blocks of a path from the entry, the last one first. -/
inductive PathTo (g : Cfg (n + 1)) : List (Fin (n + 1)) → Fin (n + 1) → Prop
  | entry : PathTo g [0] 0
  | step {p : List (Fin (n + 1))} {a b : Fin (n + 1)} :
      PathTo g p a → b ∈ (g a).next → PathTo g (b :: p) b

def Dominates (g : Cfg (n + 1)) (a b : Fin (n + 1)) : Prop := ∀ p, PathTo g p b → a ∈ p

/-- The graph that `compute_dominator_tree` is to leave: each block can be reached, and the
numbers tell the dominators. -/
structure DominanceKnown (g : Cfg (n + 1)) : Prop where
  reachable : ∀ i, ∃ p, PathTo g p i
  correct : ∀ a b, queryDominance (g a) (g b) = true ↔ Dominates g a b
  unmarked : ∀ i, (g i).isLoopHeader = false

def ForwardEdge (g : Cfg (n + 1)) (a b : Fin (n + 1)) : Prop :=
  b ∈ (g a).next ∧ ¬ Dominates g b a

/-- Without the edges to a dominator no cycle is left. -/
def Reducible (g : Cfg (n + 1)) : Prop := ∀ x, ¬ Relation.TransGen (ForwardEdge g) x x

variable {b : Fin (n + 1)} {p : List (Fin (n + 1))}

/-- A path goes through each of its blocks on a path that is no longer. -/
theorem PathTo.of_mem {g : Cfg (n + 1)} {a : Fin (n + 1)}
    (h : PathTo g p b) (ha : a ∈ p) : ∃ q, PathTo g q a ∧ q.length ≤ p.length := by
  induction h with
  | entry =>
    rw [mem_singleton.mp ha]
    exact ⟨[0], .entry, Nat.le_refl _⟩
  | @step p c b hp hedge ih =>
    rcases mem_cons.mp ha with rfl | ha
    · exact ⟨a :: p, .step hp hedge, Nat.le_refl _⟩
    · obtain ⟨q, hq, hlen⟩ := ih ha
      exact ⟨q, hq, Nat.le_succ_of_le hlen⟩

theorem PathTo.mem {g : Cfg (n + 1)} (h : PathTo g p b) : b ∈ p ∧ 0 ∈ p := by
  induction h with
  | entry => exact ⟨mem_singleton_self 0, mem_singleton_self 0⟩
  | step _ _ ih => exact ⟨mem_cons_self, mem_cons_of_mem _ ih.2⟩

/-- The last edge of a shortest path is not a back edge. -/
theorem PathTo.forward {g : Cfg (n + 1)}
    (h : PathTo g p b) : Relation.ReflTransGen (ForwardEdge g) 0 b := by
  induction hlen : p.length using Nat.strong_induction_on generalizing p b with
  | _ k ih =>
    subst hlen
    cases h with
    | entry => exact .refl
    | @step p a _ hp hedge =>
      by_cases hback : Dominates g b a
      · obtain ⟨q, hq, hle⟩ := hp.of_mem (hback p hp)
        exact ih q.length (Nat.lt_succ_of_le hle) hq rfl
      · exact (ih p.length (Nat.lt_succ_self _) hp rfl).tail ⟨hedge, hback⟩

/-! ### Marking -/

/-- The graph after some turns of the marking loops. -/
structure Marked (g : Cfg n) (done : List (Fin n × ℕ)) (m : Cfg n) : Prop where
  next : ∀ i, (m i).next = (g i).next
  query : ∀ a b, queryDominance (m a) (m b) = queryDominance (g a) (g b)
  back : ∀ i j x, (i, j) ∈ done → (g i).next[j]? = some x →
    (m i).isBackedge j = queryDominance (g x) (g i)
  header : ∀ x, (m x).isLoopHeader = true ↔ (g x).isLoopHeader = true ∨
    ∃ i j, (i, j) ∈ done ∧ (g i).next[j]? = some x ∧ queryDominance (g x) (g i) = true

section Fields
variable (m) (i k : Fin n) (j l : ℕ) (back : Bool)

theorem setBackedge_other : (setBackedge m i j back k).next = (m k).next ∧
    (setBackedge m i j back k).idomPre = (m k).idomPre ∧
    (setBackedge m i j back k).idomPost = (m k).idomPost ∧
    (setBackedge m i j back k).isLoopHeader = (m k).isLoopHeader := by
  simp only [setBackedge, Function.update_apply]
  split_ifs with h
  · exact h ▸ ⟨rfl, rfl, rfl, rfl⟩
  · exact ⟨rfl, rfl, rfl, rfl⟩

theorem setBackedge_isBackedge : (setBackedge m i j back k).isBackedge l =
    if k = i ∧ l = j then back else (m k).isBackedge l := by
  by_cases h : k = i
  · subst h
    simp [setBackedge, Function.update_apply]
  · simp [setBackedge, h]

theorem noteHeader_other : (noteHeader m i back k).next = (m k).next ∧
    (noteHeader m i back k).idomPre = (m k).idomPre ∧
    (noteHeader m i back k).idomPost = (m k).idomPost ∧
    (noteHeader m i back k).isBackedge = (m k).isBackedge := by
  simp only [noteHeader, Function.update_apply]
  split_ifs with h
  · exact h ▸ ⟨rfl, rfl, rfl, rfl⟩
  · exact ⟨rfl, rfl, rfl, rfl⟩

theorem noteHeader_isLoopHeader : (noteHeader m i back k).isLoopHeader =
    ((m k).isLoopHeader || (k = i && back)) := by
  by_cases h : k = i
  · subst h
    simp [noteHeader]
  · simp [noteHeader, h]

end Fields

theorem Marked.turn (h : Marked g done m) (i : Fin n) (j : ℕ) :
    Marked g (done ++ [(i, j)]) (markEdge m i j) := by
  have hi := h.next i
  cases hnext : (m i).next[j]? with
  | none =>
    simp only [markEdge, hnext]
    have hmem : ∀ {k l x}, (k, l) ∈ done ++ [(i, j)] → (g k).next[l]? = some x → (k, l) ∈ done := by
      intro k l x hkl hx
      rcases mem_append.mp hkl with hkl | hkl
      · exact hkl
      · cases mem_singleton.mp hkl
        rw [← hi, hnext] at hx
        cases hx
    refine ⟨h.next, h.query, fun k l x hkl hx => h.back k l x (hmem hkl hx) hx, fun x => ?_⟩
    rw [h.header x]
    refine or_congr_right ⟨fun ⟨k, l, hkl, hx⟩ => ⟨k, l, mem_append_left _ hkl, hx⟩, ?_⟩
    rintro ⟨k, l, hkl, hx, hq⟩
    exact ⟨k, l, hmem hkl hx, hx, hq⟩
  | some x =>
    simp only [markEdge, hnext]
    have hx : (g i).next[j]? = some x := hi ▸ hnext
    refine ⟨fun k => ?_, fun a b => ?_, fun k l y hkl hy => ?_, fun y => ?_⟩
    · rw [(noteHeader_other ..).1, (setBackedge_other ..).1, h.next]
    · rw [← h.query a b]
      simp only [queryDominance, noteHeader_other, setBackedge_other]
    · rw [(noteHeader_other ..).2.2.2, setBackedge_isBackedge]
      by_cases heq : k = i ∧ l = j
      · obtain ⟨rfl, rfl⟩ := heq
        cases hx.symm.trans hy
        rw [if_pos ⟨rfl, rfl⟩, h.query]
      · rw [if_neg heq]
        refine h.back k l y ((mem_append.mp hkl).resolve_right fun hkl => heq ?_) hy
        cases mem_singleton.mp hkl
        exact ⟨rfl, rfl⟩
    · rw [noteHeader_isLoopHeader, (setBackedge_other ..).2.2.2, h.query]
      simp only [Bool.or_eq_true, Bool.and_eq_true, decide_eq_true_eq, h.header y,
        mem_append, mem_singleton, Prod.mk.injEq]
      constructor
      · rintro ((hy | ⟨k, l, hkl, hy⟩) | ⟨rfl, hq⟩)
        · exact .inl hy
        · exact .inr ⟨k, l, .inl hkl, hy⟩
        · exact .inr ⟨i, j, .inr ⟨rfl, rfl⟩, hx, hq⟩
      · rintro (hy | ⟨k, l, hkl | ⟨rfl, rfl⟩, hy, hq⟩)
        · exact .inl (.inl hy)
        · exact .inl (.inr ⟨k, l, hkl, hy, hq⟩)
        · cases hx.symm.trans hy
          exact .inr ⟨rfl, hq⟩

theorem Marked.run (h : Marked g done m) (todo : List (Fin n × ℕ)) :
    Marked g (done ++ todo) (todo.foldl (fun m e => markEdge m e.1 e.2) m) := by
  induction todo generalizing done m with
  | nil => rwa [append_nil]
  | cons e todo ih =>
    have hrest := ih (h.turn e.1 e.2)
    rwa [append_assoc, singleton_append] at hrest

theorem markBackedges_marked (g : Cfg n) : Marked g (edgeIndices g) (markBackedges g) := by
  have hstart : Marked g [] g := ⟨fun _ => rfl, fun _ _ => rfl, nofun, fun _ =>
    ⟨.inl, fun h => h.resolve_right fun ⟨_, _, hmem, _⟩ => nomatch hmem⟩⟩
  exact hstart.run (edgeIndices g)

theorem mem_edgeIndices {i x : Fin n} {j : ℕ} (h : (g i).next[j]? = some x) :
    (i, j) ∈ edgeIndices g := by
  have hj : j < (g i).next.length := (List.getElem?_eq_some_iff.mp h).1
  exact mem_flatMap.mpr ⟨i, mem_finRange i, mem_map.mpr
    ⟨j, mem_range.mpr hj, rfl⟩⟩

theorem mem_forwardEdges {i x : Fin n} : x ∈ forwardEdges (markBackedges g) i ↔
    x ∈ (g i).next ∧ queryDominance (g x) (g i) = false := by
  have hm := markBackedges_marked g
  simp only [forwardEdges, hm.next, mem_filterMap, Prod.exists,
    mem_zipIdx_iff_getElem?]
  constructor
  · rintro ⟨y, j, hy, hx⟩
    split_ifs at hx with hback
    cases hx
    rw [hm.back i j x (mem_edgeIndices hy) hy] at hback
    exact ⟨mem_of_getElem? hy, Bool.eq_false_iff.mpr hback⟩
  · rintro ⟨hmem, hq⟩
    obtain ⟨j, hj⟩ := mem_iff_getElem?.mp hmem
    refine ⟨x, j, hj, ?_⟩
    rw [hm.back i j x (mem_edgeIndices hj) hj, hq]
    rfl

variable {g : Cfg (n + 1)}

/-- What a call leaves: exactly the edges to a dominator are marked, exactly their targets are
loop headers, and the graph has been found reducible exactly if it is. -/
structure Reduced (g : Cfg (n + 1)) (fail : ℕ) (g' : Cfg (n + 1)) : Prop where
  backedge : ∀ i j x, (g i).next[j]? = some x →
    ((g' i).isBackedge j = true ↔ Dominates g x i)
  header : ∀ x, (g' x).isLoopHeader = true ↔ ∃ i, x ∈ (g i).next ∧ Dominates g x i
  result : fail = 0 ↔ Reducible g

theorem attemptReduceCfg_reduced (h : DominanceKnown g) :
    ∃ fail g', attemptReduceCfg g = some (fail, g') ∧ Reduced g fail g' := by
  have hm := markBackedges_marked g
  have hedge : CycleSearch.Edge (forwardEdges (markBackedges g)) = ForwardEdge g := by
    funext a b
    exact propext (mem_forwardEdges.trans (and_congr_right fun _ => by
      rw [← h.correct, Bool.eq_false_iff]))
  obtain ⟨r, hr, hcycle⟩ := CycleSearch.search_start (forwardEdges (markBackedges g))
    (fun _ _ y _ => mem_finRange y) (mem_finRange 0)
  rw [length_finRange] at hr
  refine ⟨if r.1 then 1 else 0, markBackedges g, ?_, fun i j x hx => ?_, fun x => ?_, ?_⟩
  · rw [attemptReduceCfg, forwardEdgesFormACycle, hr]
    rfl
  · rw [hm.back i j x (mem_edgeIndices hx) hx, h.correct]
  · simp only [hm.header x, h.unmarked, h.correct, Bool.false_eq_true, false_or]
    constructor
    · rintro ⟨i, j, -, hx, hd⟩
      exact ⟨i, mem_of_getElem? hx, hd⟩
    · rintro ⟨i, hx, hd⟩
      obtain ⟨j, hj⟩ := mem_iff_getElem?.mp hx
      exact ⟨i, j, mem_edgeIndices hj, hj, hd⟩
  · cases hfound : r.1 with
    | true =>
      rw [hfound, if_pos rfl, hedge] at hcycle
      obtain ⟨x, hx⟩ := hcycle
      exact ⟨nofun, fun hred => absurd hx (hred x)⟩
    | false =>
      rw [hfound, if_neg Bool.false_ne_true] at hcycle
      refine ⟨fun _ x hx => ?_, fun _ => rfl⟩
      -- A cycle would be reached, as each block is, by edges that are not back edges.
      obtain ⟨p, hp⟩ := h.reachable x
      have hreach := hp.forward
      rw [← hedge] at hx hreach
      exact (hcycle.of_reach hreach).not_cycle hx

/-- An entry and a block that goes on to itself. -/
def spinCfg : Cfg 2
  | 0 => ⟨[1], fun _ => false, 1, 4, false⟩
  | 1 => ⟨[1], fun _ => false, 2, 3, false⟩

theorem spinCfg_known : DominanceKnown spinCfg := by
  have hentry : PathTo spinCfg [0] 0 := .entry
  have hspin : PathTo spinCfg [1, 0] 1 := hentry.step (by decide)
  refine ⟨fun i => ?_, fun a b => ?_, by decide⟩
  · match i with
    | 0 => exact ⟨_, hentry⟩
    | 1 => exact ⟨_, hspin⟩
  · by_cases hab : a = 1 ∧ b = 0
    · obtain ⟨rfl, rfl⟩ := hab
      exact ⟨fun h => absurd h (by decide), fun h => absurd (h [0] hentry) (by decide)⟩
    · have hquery : queryDominance (spinCfg a) (spinCfg b) = true := by
        revert a b
        decide
      have hcases : a = b ∨ a = 0 := by
        clear hquery
        revert a b
        decide
      refine iff_of_true hquery fun p hp => ?_
      obtain heq | rfl := hcases
      · exact heq ▸ hp.mem.1
      · exact hp.mem.2

theorem attemptReduceCfg_spin : DominanceKnown spinCfg ∧
    ∃ fail g', attemptReduceCfg spinCfg = some (fail, g') ∧ Reduced spinCfg fail g' :=
  ⟨spinCfg_known, attemptReduceCfg_reduced spinCfg_known⟩

end TraceJvm
