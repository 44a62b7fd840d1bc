import Mathlib.Data.Finset.Card

/-! Finding what is reachable with a worklist. When the list is empty, exactly the reachable items
have been visited. -/
namespace Worklist

open List

variable {α : Type*}

def Found (edge : α → α → Prop) (root : α → Prop) (a : α) : Prop :=
  ∃ r, root r ∧ Relation.ReflTransGen edge r a

/-- The items of `done` have been visited, and those of `work` are to be visited. -/
structure Search (edge : α → α → Prop) (root : α → Prop) (done work : List α) : Prop where
  nodup : (done ++ work).Nodup
  found : ∀ a ∈ done ++ work, Found edge root a
  roots : ∀ a, root a → a ∈ done ++ work
  closed : ∀ a ∈ done, ∀ b, edge a b → b ∈ done ++ work

variable {edge : α → α → Prop} {root : α → Prop} {done work work' : List α} {a b : α}

theorem Found.step (h : Found edge root a) (hab : edge a b) : Found edge root b := by
  obtain ⟨r, hr, hpath⟩ := h
  exact ⟨r, hr, hpath.tail hab⟩

theorem Found.ofRoot (h : root a) : Found edge root a := ⟨a, h, .refl⟩

namespace Search

theorem start (hnodup : work.Nodup) (hroot : ∀ a, a ∈ work ↔ root a) :
    Search edge root [] work where
  nodup := hnodup
  found a ha := .ofRoot ((hroot a).mp ha)
  roots a ha := (hroot a).mpr ha
  closed _ ha := absurd ha not_mem_nil

/-- An item is visited: the items that it has edges to and that are new join the worklist. -/
theorem visit (h : Search edge root done (a :: work)) (hnodup : (a :: done ++ work').Nodup)
    (hwork : ∀ b ∈ work, b ∈ work') (hnew : ∀ b ∈ work', b ∈ work ∨ edge a b)
    (hedges : ∀ b, edge a b → b ∈ a :: done ++ work') :
    Search edge root (a :: done) work' := by
  have hkeep {b : α} (hb : b ∈ done ++ a :: work) : b ∈ a :: done ++ work' := by
    simp only [mem_append, mem_cons] at hb ⊢
    rcases hb with hb | rfl | hb
    · exact .inl (.inr hb)
    · exact .inl (.inl rfl)
    · exact .inr (hwork b hb)
  have ha : Found edge root a := h.found a (by simp)
  refine ⟨hnodup, ?_, fun b hb => hkeep (h.roots b hb), ?_⟩
  · intro b hb
    simp only [mem_append, mem_cons] at hb
    rcases hb with (rfl | hb) | hb
    · exact ha
    · exact h.found b (mem_append_left _ hb)
    · rcases hnew b hb with hb | hb
      · exact h.found b (by simp [hb])
      · exact ha.step hb
  · intro c hc b hcb
    rcases mem_cons.mp hc with rfl | hc
    · exact hedges b hcb
    · exact hkeep (h.closed c hc b hcb)

theorem complete (h : Search edge root done []) : a ∈ done ↔ Found edge root a := by
  constructor
  · intro ha
    exact h.found a (by simpa using ha)
  · rintro ⟨r, hr, hpath⟩
    induction hpath with
    | refl => simpa using h.roots r hr
    | tail _ hab ih => simpa using h.closed _ ih _ hab

theorem length_le (h : Search edge root done work) (s : Finset α)
    (hs : ∀ a, Found edge root a → a ∈ s) : done.length + work.length ≤ s.card := by
  classical
  rw [← length_append, ← toFinset_card_of_nodup h.nodup]
  apply Finset.card_le_card
  intro a ha
  exact hs a (h.found a (mem_toFinset.mp ha))

end Search

end Worklist
