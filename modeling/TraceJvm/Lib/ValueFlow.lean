import Mathlib.Tactic.Common

/-! Slots that are overwritten or kept along the edges of a graph: which values a slot can hold at a
node, over all paths from the start, and the claims about them that can be checked edge by edge. -/
namespace ValueFlow

universe u v w

def Simple {σ : Type v} {κ : Type w} (f : σ → κ → κ) : Prop :=
  ∀ l, (∃ k, ∀ x, f l x = k) ∨ ∀ x, f l x = x

structure Graph (ν : Type u) (σ : Type v) (κ : Type w) where
  start : ν
  initial : σ → κ
  edge : ν → ν → (σ → κ → κ) → Prop
  simple : ∀ i t f, edge i t f → Simple f

namespace Graph

variable {ν : Type u} {σ : Type v} {κ : Type w} {G : Graph ν σ κ} {P : ν → σ → κ → Prop}

/-- Some path from the start leads to the node with the value in the slot. -/
inductive Holds (G : Graph ν σ κ) : ν → σ → κ → Prop where
  | start (l : σ) : Holds G G.start l (G.initial l)
  | edge {i t : ν} {l : σ} {k : κ} {f : σ → κ → κ} (h : Holds G i l k) (he : G.edge i t f) :
      Holds G t l (f l k)

def Settled (G : Graph ν σ κ) (i : ν) (l : σ) (k : κ) : Prop := ∀ k', G.Holds i l k' → k' = k

/-- The claims agree with the start and with every edge: what is claimed behind an edge is written
by it, or claimed before it and kept. -/
structure Carried (G : Graph ν σ κ) (P : ν → σ → κ → Prop) : Prop where
  start : ∀ l k, P G.start l k → G.initial l = k
  edge : ∀ i t f, G.edge i t f → ∀ l k, P t l k → (∀ x, f l x = k) ∨ P i l k ∧ f l k = k

theorem Carried.settled (h : G.Carried P) {i : ν} {l : σ} {k : κ} (hp : P i l k) :
    G.Settled i l k := by
  intro k' hk'
  induction hk' with
  | start l => exact h.start l k hp
  | edge hi he ih =>
    rcases h.edge _ _ _ he _ _ hp with hwritten | ⟨hbefore, hkept⟩
    · exact hwritten _
    · rw [ih hbefore]
      exact hkept

theorem carried_settled (hreach : ∀ i t f, G.edge i t f → ∀ l, ∃ k, G.Holds i l k) :
    G.Carried G.Settled := by
  constructor
  · intro l k h
    exact h _ (.start l)
  · intro i t f he l k h
    rcases G.simple i t f he l with ⟨k₀, hwritten⟩ | hkept
    · left
      obtain ⟨k', hk'⟩ := hreach i t f he l
      have hbehind : f l k' = k := h _ (hk'.edge he)
      intro x
      rw [hwritten, ← hbehind, hwritten]
    · right
      refine ⟨fun k' hk' => ?_, hkept k⟩
      have hbehind : f l k' = k := h _ (hk'.edge he)
      rw [← hbehind, hkept]

end Graph

end ValueFlow
