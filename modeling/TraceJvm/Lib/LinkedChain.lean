import Mathlib.Data.List.Nodup

/-! Singly linked lists that end in a null value, read off a partial successor function. -/
namespace LinkedChain

open List

variable {α β : Type*}

inductive Chain (null : α) (next : α → Option α) : α → List α → Prop
  | nil : Chain null next null []
  | cons {p q : α} {l : List α} (hp : p ≠ null) (hnext : next p = some q)
    (hrest : Chain null next q l) : Chain null next p (p :: l)

namespace Chain

variable {null : α} {next next' : α → Option α} {p q : α} {l l' : List α}

theorem unique (h : Chain null next p l) (h' : Chain null next p l') : l = l' := by
  induction h generalizing l' with
  | nil =>
    cases h' with
    | nil => rfl
    | cons hp => exact absurd rfl hp
  | cons hp hnext _ ih =>
    cases h' with
    | nil => exact absurd rfl hp
    | cons _ hnext' hrest' =>
      rw [hnext] at hnext'
      rw [ih (Option.some.inj hnext' ▸ hrest')]

theorem suffix (h : Chain null next p l) (hq : q ∈ l) :
    ∃ l', Chain null next q l' ∧ l'.length ≤ l.length := by
  induction h with
  | nil => cases hq
  | @cons p q' l hp hnext hrest ih =>
    rcases mem_cons.mp hq with rfl | hq
    · exact ⟨_, .cons hp hnext hrest, Nat.le_refl _⟩
    · obtain ⟨l', hl', hle⟩ := ih hq
      exact ⟨l', hl', Nat.le_succ_of_le hle⟩

theorem nodup (h : Chain null next p l) : l.Nodup := by
  induction h with
  | nil => exact nodup_nil
  | @cons p q l hp hnext hrest ih =>
    refine nodup_cons.mpr ⟨fun hmem => ?_, ih⟩
    obtain ⟨l', hl', hle⟩ := hrest.suffix hmem
    rw [hl'.unique (.cons hp hnext hrest), length_cons] at hle
    omega

theorem next_some (h : Chain null next p l) (hq : q ∈ l) : ∃ q', next q = some q' := by
  induction h with
  | nil => cases hq
  | cons _ hnext _ ih =>
    rcases mem_cons.mp hq with rfl | hq
    · exact ⟨_, hnext⟩
    · exact ih hq

theorem congr (h : Chain null next p l) (hsame : ∀ q ∈ l, next' q = next q) :
    Chain null next' p l := by
  induction h with
  | nil => exact .nil
  | @cons p q l hp hnext _ ih =>
    refine .cons hp ?_ (ih fun x hx => hsame x (mem_cons_of_mem _ hx))
    rw [hsame p mem_cons_self, hnext]

theorem map {null' : β} {next' : β → Option β} (f : α → β) (hnull : f null = null')
    (h : Chain null next p l) (hne : ∀ q ∈ l, f q ≠ null')
    (hlink : ∀ q ∈ l, ∀ x, next q = some x → next' (f q) = some (f x)) :
    Chain null' next' (f p) (l.map f) := by
  induction h with
  | nil =>
    rw [hnull]
    exact .nil
  | @cons p q l hp hnext _ ih =>
    refine .cons (hne p mem_cons_self) (hlink p mem_cons_self q hnext)
      (ih (fun x hx => hne x (mem_cons_of_mem _ hx))
        fun x hx => hlink x (mem_cons_of_mem _ hx))

theorem forall_mem {P : α → Prop} (h : Chain null next p l) (hfirst : p ∈ l → P p)
    (hlink : ∀ q ∈ l, ∀ x ∈ l, P q → next q = some x → P x) : ∀ q ∈ l, P q := by
  induction h with
  | nil => exact fun _ hq => absurd hq not_mem_nil
  | @cons p q l hp hnext _ ih =>
    have hthis := hfirst mem_cons_self
    have hrest := ih (fun hq => hlink p mem_cons_self q (mem_cons_of_mem _ hq) hthis hnext)
      fun y hy x hx => hlink y (mem_cons_of_mem _ hy) x (mem_cons_of_mem _ hx)
    intro x hx
    rcases mem_cons.mp hx with rfl | hx
    · exact hthis
    · exact hrest x hx

end Chain

end LinkedChain
