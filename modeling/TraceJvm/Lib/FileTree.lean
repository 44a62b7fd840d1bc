import TraceJvm.Lib.OrderedMap

/-! Trees of directories and files. A path is the list of names from the root. -/

inductive FileTree (κ β : Type) where
  | file (content : β)
  | directory (entries : List (κ × FileTree κ β))

namespace FileTree

open List

variable {κ β : Type} [DecidableEq κ]

def get : FileTree κ β → List κ → Option (FileTree κ β)
  | t, [] => some t
  | .file _, _ :: _ => none
  | .directory es, k :: p => (OrderedMap.get es k).bind fun child => child.get p

/-- Replaces or deletes the node at a path whose parent is a directory. -/
def put : FileTree κ β → List κ → Option (FileTree κ β) → FileTree κ β
  | t, [], _ => t
  | .file c, _ :: _, _ => .file c
  | .directory es, [k], some new => .directory (OrderedMap.set es k new)
  | .directory es, [k], none => .directory (OrderedMap.delete es k)
  | .directory es, k :: k' :: p, new =>
    match OrderedMap.get es k with
    | none => .directory es
    | some child => .directory (OrderedMap.set es k (child.put (k' :: p) new))

def isDirectory : Option (FileTree κ β) → Bool
  | some (.directory _) => true
  | _ => false

def contentAt (t : FileTree κ β) (p : List κ) : Option β :=
  match t.get p with
  | some (.file c) => some c
  | _ => none

def Bare (x : Option (FileTree κ β)) : Prop := ∀ k p, x.bind (·.get (k :: p)) = none

theorem bare_none : Bare (none : Option (FileTree κ β)) := fun _ _ => rfl

theorem bare_empty : Bare (some (.directory []) : Option (FileTree κ β)) := fun _ _ => rfl

variable {t : FileTree κ β} {p q : List κ} {new : Option (FileTree κ β)}

theorem get_append (t : FileTree κ β) (p q : List κ) :
    t.get (p ++ q) = (t.get p).bind (·.get q) := by
  induction p generalizing t with
  | nil =>
    cases t <;> simp [get]
  | cons k p ih =>
    cases t with
    | file c => rfl
    | directory es =>
      simp only [cons_append, get, Option.bind_assoc]
      exact congrArg _ (funext fun child => ih child)

theorem get_put_above (t : FileTree κ β) (q : List κ) (k : κ) (p : List κ) :
    (t.put (q ++ k :: p) new).get q = (t.get q).map (·.put (k :: p) new) := by
  induction q generalizing t with
  | nil => cases t <;> simp [get]
  | cons k₀ q ih =>
    obtain ⟨k₁, r, hr⟩ : ∃ k₁ r, q ++ k :: p = k₁ :: r := by
      cases q with
      | nil => exact ⟨k, p, rfl⟩
      | cons k₁ q => exact ⟨k₁, q ++ k :: p, rfl⟩
    cases t with
    | file c => simp [put, get]
    | directory es =>
      rw [cons_append, hr, put]
      cases hget : OrderedMap.get es k₀ with
      | none => simp [get, hget]
      | some child =>
        simp only [get, OrderedMap.get_set_self, hget, Option.bind_some]
        rw [← hr]
        exact ih child

theorem get_put_child (es : List (κ × FileTree κ β)) (k : κ) :
    ((FileTree.directory es).put [k] new).get [k] = new := by
  cases new with
  | none => simp [put, get, OrderedMap.get_delete]
  | some n => simp [put, get]

theorem get_put_self (t : FileTree κ β) (q : List κ) (k : κ) (new : Option (FileTree κ β)) :
    (t.put (q ++ [k]) new).get (q ++ [k]) =
      if isDirectory (t.get q) then new else none := by
  rw [get_append, get_put_above, Option.bind_map]
  cases hq : t.get q with
  | none => rfl
  | some n =>
    cases n with
    | file c => rfl
    | directory es => exact get_put_child es k

theorem get_put_other (es : List (κ × FileTree κ β)) {k k₀ : κ} (h : k ≠ k₀) (p q : List κ) :
    ((FileTree.directory es).put (k :: p) new).get (k₀ :: q) =
      (FileTree.directory es).get (k₀ :: q) := by
  cases p with
  | nil =>
    cases new with
    | none => simp [put, get, OrderedMap.get_delete, h]
    | some n => simp [put, get, OrderedMap.get_set_of_ne h]
  | cons k₁ p =>
    rw [put]
    cases OrderedMap.get es k with
    | none => rfl
    | some child => simp [get, OrderedMap.get_set_of_ne h]

theorem get_put_beside (h : ¬ p <+: q) (h' : ¬ q <+: p) : (t.put p new).get q = t.get q := by
  induction p generalizing t q with
  | nil => exact absurd nil_prefix h
  | cons k p ih =>
    cases q with
    | nil => exact absurd nil_prefix h'
    | cons k₀ q =>
      cases t with
      | file c => rfl
      | directory es =>
        by_cases hk : k = k₀
        · subst hk
          rw [cons_prefix_cons] at h h'
          cases p with
          | nil => exact absurd ⟨rfl, nil_prefix⟩ h
          | cons k₁ p =>
            rw [put]
            cases hget : OrderedMap.get es k with
            | none => rfl
            | some child =>
              simp only [get, OrderedMap.get_set_self, hget, Option.bind_some]
              exact ih (fun hp => h ⟨rfl, hp⟩) (fun hp => h' ⟨rfl, hp⟩)
        · exact get_put_other es hk p q

/-! ### Contents -/

theorem contentAt_eq_none (h : isDirectory (t.get p) = true) : t.contentAt p = none := by
  unfold contentAt
  cases hp : t.get p with
  | none => rfl
  | some n =>
    cases n with
    | file c =>
      rw [hp] at h
      cases h
    | directory es => rfl

theorem contentAt_append_of_bare (h : Bare (t.get p)) (k : κ) (r : List κ) :
    t.contentAt (p ++ k :: r) = none := by
  rw [contentAt, get_append, h k r]

theorem put_directory (es : List (κ × FileTree κ β)) (p : List κ) (new : Option (FileTree κ β)) :
    ∃ es', (FileTree.directory es).put p new = .directory es' := by
  cases p with
  | nil => exact ⟨es, rfl⟩
  | cons k p =>
    cases p with
    | nil => cases new <;> exact ⟨_, rfl⟩
    | cons k' p =>
      rw [put]
      cases OrderedMap.get es k <;> exact ⟨_, rfl⟩

theorem contentAt_put_above (t : FileTree κ β) (q : List κ) (k : κ) (p : List κ) :
    (t.put (q ++ k :: p) new).contentAt q = t.contentAt q := by
  unfold contentAt
  rw [get_put_above]
  cases t.get q with
  | none => rfl
  | some n =>
    cases n with
    | file c => rfl
    | directory es =>
      obtain ⟨es', hput⟩ := put_directory es (k :: p) new
      rw [Option.map_some, hput]

theorem get_put_cases (t : FileTree κ β) (new : Option (FileTree κ β)) (h : p ≠ []) :
    (t.put p new).get p = new ∨ (t.put p new).get p = none := by
  rw [← dropLast_concat_getLast h, get_put_self]
  split
  · exact .inl rfl
  · exact .inr rfl

theorem contentAt_put_of_not_below (h : ¬ p <+: q) :
    (t.put p new).contentAt q = t.contentAt q := by
  by_cases hq : q <+: p
  · obtain ⟨r, rfl⟩ := hq
    cases r with
    | nil => exact absurd ⟨[], by rw [append_nil, append_nil]⟩ h
    | cons k r => exact contentAt_put_above t q k r
  · rw [contentAt, contentAt, get_put_beside h hq]

theorem contentAt_put_of_ne (hold : Bare (t.get p)) (hnew : Bare new) (h : q ≠ p) :
    (t.put p new).contentAt q = t.contentAt q := by
  by_cases hp : p <+: q
  · obtain ⟨r, rfl⟩ := hp
    cases r with
    | nil => exact absurd (append_nil p) h
    | cons k r =>
      cases p with
      | nil => rfl
      | cons k₀ p =>
        rw [contentAt_append_of_bare hold]
        apply contentAt_append_of_bare
        rcases get_put_cases t new (cons_ne_nil k₀ p) with heq | heq
        · rw [heq]
          exact hnew
        · rw [heq]
          exact bare_none
  · exact contentAt_put_of_not_below hp

theorem isDirectory_of_isSome {k : κ} (h : (t.get (q ++ [k])).isSome) :
    isDirectory (t.get q) = true := by
  rw [get_append] at h
  cases hq : t.get q with
  | none =>
    rw [hq] at h
    cases h
  | some n =>
    cases n with
    | file c =>
      rw [hq] at h
      cases h
    | directory es => rfl

theorem isSome_get_put (hold : Bare (t.get p)) (hq : (t.get q).isSome) (hne : q ≠ p ∨ new.isSome) :
    ((t.put p new).get q).isSome := by
  by_cases hp : p <+: q
  · obtain ⟨r, rfl⟩ := hp
    cases r with
    | nil =>
      rw [append_nil] at hq hne ⊢
      by_cases hnil : p = []
      · rw [hnil]
        rfl
      · rw [← dropLast_concat_getLast hnil] at hq ⊢
        rw [get_put_self, if_pos (isDirectory_of_isSome hq)]
        exact hne.resolve_left (fun h => h rfl)
    | cons k r =>
      rw [get_append, hold k r] at hq
      cases hq
  · by_cases hq' : q <+: p
    · obtain ⟨r, rfl⟩ := hq'
      cases r with
      | nil => exact absurd ⟨[], by rw [append_nil, append_nil]⟩ hp
      | cons k r =>
        rw [get_put_above, Option.isSome_map]
        exact hq
    · rwa [get_put_beside hp hq']

theorem isDirectory_put_of_not_below (h : ¬ p <+: q) :
    isDirectory ((t.put p new).get q) = isDirectory (t.get q) := by
  by_cases hq : q <+: p
  · obtain ⟨r, rfl⟩ := hq
    cases r with
    | nil => exact absurd ⟨[], by rw [append_nil, append_nil]⟩ h
    | cons k r =>
      rw [get_put_above]
      cases t.get q with
      | none => rfl
      | some n =>
        cases n with
        | file c => rfl
        | directory es =>
          obtain ⟨es', hput⟩ := put_directory es (k :: r) new
          rw [Option.map_some, hput]
          rfl
  · rw [get_put_beside h hq]

/-- A directory stays a directory where another bare node is exchanged. -/
theorem isDirectory_get_put (hold : Bare (t.get p)) (hq : isDirectory (t.get q) = true)
    (hne : q ≠ p) : isDirectory ((t.put p new).get q) = true := by
  by_cases hp : p <+: q
  · obtain ⟨r, rfl⟩ := hp
    cases r with
    | nil => exact absurd (append_nil p) hne
    | cons k r =>
      rw [get_append, hold k r] at hq
      cases hq
  · rwa [isDirectory_put_of_not_below hp]

/-- No directory comes about elsewhere. -/
theorem isDirectory_of_get_put (hnew : Bare new) (hne : q ≠ p)
    (hq : isDirectory ((t.put p new).get q) = true) : isDirectory (t.get q) = true := by
  by_cases hp : p <+: q
  · obtain ⟨r, rfl⟩ := hp
    cases r with
    | nil => exact absurd (append_nil p) hne
    | cons k r =>
      cases p with
      | nil => exact hq
      | cons k₀ p =>
        rw [get_append] at hq
        rcases get_put_cases t new (cons_ne_nil k₀ p) with heq | heq
        · rw [heq, hnew k r] at hq
          cases hq
        · rw [heq] at hq
          cases hq
  · rwa [isDirectory_put_of_not_below hp] at hq

end FileTree
