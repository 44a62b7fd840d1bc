import Mathlib.Data.List.Induction
import Mathlib.Data.List.Nodup
import TraceJvm.Lib.OrderedMap

/-! File systems of directories, files and symbolic links, with the resolution of path names.
A location is the list of names from the root, with no link on the way. -/
namespace LinkedFiles

open List

/-- A directory knows its entries by their locations, and a link is its text. -/
inductive Node where
  | directory
  | file (content : List UInt8)
  | link (target : List Char)
  deriving DecidableEq

abbrev Location := List (List Char)

def Proper (name : List Char) : Prop := name ≠ [] ∧ name ≠ ['.'] ∧ name ≠ ['.', '.'] ∧ '/' ∉ name

instance (name : List Char) : Decidable (Proper name) := by
  unfold Proper
  infer_instance

structure FileSystem where
  entries : List (Location × Node)
  nodup : (entries.map Prod.fst).Nodup
  root : ([], .directory) ∈ entries
  parents : ∀ l name node, (l ++ [name], node) ∈ entries → (l, .directory) ∈ entries
  proper : ∀ l name node, (l ++ [name], node) ∈ entries → Proper name

namespace FileSystem

variable (fs : FileSystem)

def get (l : Location) : Option Node := OrderedMap.get fs.entries l

def children (l : Location) : List (List Char) :=
  (fs.entries.map Prod.fst).filterMap fun m =>
    match m.getLast? with
    | some name => if m = l ++ [name] then some name else none
    | none => none

def sizeAt (l : Location) : ℕ := fs.entries.countP fun e => decide (l <+: e.1)

def Within (fs fs' : FileSystem) : Prop := fs.entries.Sublist fs'.entries

variable {fs} {fs' : FileSystem} {l : Location} {n : Node} {name : List Char}

theorem get_eq_some : fs.get l = some n ↔ (l, n) ∈ fs.entries :=
  ⟨OrderedMap.mem_of_get, OrderedMap.get_of_mem fs.nodup⟩

theorem get_root : fs.get [] = some .directory := get_eq_some.mpr fs.root

theorem parent_directory (h : fs.get (l ++ [name]) = some n) : fs.get l = some .directory :=
  get_eq_some.mpr (fs.parents l name n (get_eq_some.mp h))

theorem name_proper (h : fs.get (l ++ [name]) = some n) : Proper name :=
  fs.proper l name n (get_eq_some.mp h)

theorem child_eq_some {m : Location} :
    (match m.getLast? with
    | some name => if m = l ++ [name] then some name else none
    | none => none) = some name ↔ m = l ++ [name] := by
  constructor
  · intro h
    split at h
    · split_ifs at h with hm
      rwa [← Option.some.inj h]
    · cases h
  · rintro rfl
    simp

theorem mem_children : name ∈ fs.children l ↔ ∃ n, fs.get (l ++ [name]) = some n := by
  unfold children
  rw [mem_filterMap]
  constructor
  · rintro ⟨m, hmem, hname⟩
    obtain rfl := child_eq_some.mp hname
    obtain ⟨⟨m, n⟩, hentry, rfl⟩ := mem_map.mp hmem
    exact ⟨n, get_eq_some.mpr hentry⟩
  · rintro ⟨n, hn⟩
    exact ⟨l ++ [name], mem_map.mpr ⟨_, get_eq_some.mp hn, rfl⟩, child_eq_some.mpr rfl⟩

theorem nodup_children (fs : FileSystem) (l : Location) : (fs.children l).Nodup := by
  apply List.Nodup.filterMap _ fs.nodup
  intro m m' name hm hm'
  exact (child_eq_some.mp hm).trans (child_eq_some.mp hm').symm

theorem directory_above {p : Location} {x : List Char} (h : fs.get (l ++ x :: p) = some n) :
    fs.get l = some .directory := by
  induction p using List.reverseRecOn generalizing n with
  | nil => exact parent_directory h
  | append_singleton p y ih =>
    rw [← cons_append, ← append_assoc] at h
    exact ih (parent_directory h)

theorem Within.refl (fs : FileSystem) : Within fs fs := List.Sublist.refl _

theorem Within.trans {fs'' : FileSystem} (h : Within fs fs') (h' : Within fs' fs'') :
    Within fs fs'' := List.Sublist.trans h h'

theorem Within.get (h : Within fs fs') (hget : fs.get l = some n) : fs'.get l = some n :=
  get_eq_some.mpr (h.subset (get_eq_some.mp hget))

theorem Within.sizeAt (h : Within fs fs') (l : Location) : fs.sizeAt l ≤ fs'.sizeAt l :=
  List.Sublist.countP_le h

/-- There are fewer entries at a child than at its directory. -/
theorem sizeAt_child (h : fs.get l = some n) (name : List Char) :
    fs.sizeAt (l ++ [name]) < fs.sizeAt l := by
  have hbelow : ∀ e : Location × Node, l ++ [name] <+: e.1 → l <+: e.1 := fun e he =>
    (prefix_append l [name]).trans he
  have hmem : (l, n) ∈ fs.entries := get_eq_some.mp h
  have hself : ¬ l ++ [name] <+: l := by
    intro hpre
    have hlen := hpre.length_le
    rw [length_append, length_singleton] at hlen
    omega
  obtain ⟨before, after, hsplit⟩ := append_of_mem hmem
  unfold FileSystem.sizeAt
  rw [hsplit, countP_append, countP_append,
    countP_cons_of_neg (by simpa using hself), countP_cons_of_pos (by simp)]
  have hmono : ∀ es : List (Location × Node),
      es.countP (fun e => decide (l ++ [name] <+: e.1)) ≤ es.countP fun e => decide (l <+: e.1) :=
    fun es => countP_mono_left fun e _ he => by simpa using hbelow e (by simpa using he)
  have h₁ := hmono before
  have h₂ := hmono after
  omega

theorem sizeAt_le (fs : FileSystem) (l : Location) : fs.sizeAt l ≤ fs.entries.length :=
  countP_le_length

def removeEntry (fs : FileSystem) (l : Location) (hroot : l ≠ []) (hbare : fs.children l = []) :
    FileSystem where
  entries := OrderedMap.delete fs.entries l
  nodup := List.Nodup.sublist (filter_sublist.map _) fs.nodup
  root := mem_filter.mpr ⟨fs.root, by simpa using hroot.symm⟩
  parents := by
    intro m name node hmem
    have hin := (mem_filter.mp hmem).1
    apply mem_filter.mpr
    refine ⟨fs.parents m name node hin, ?_⟩
    have hne : m ≠ l := by
      rintro rfl
      have hchild := mem_children.mpr ⟨node, get_eq_some.mpr hin⟩
      rw [hbare] at hchild
      exact absurd hchild not_mem_nil
    simpa using hne
  proper := fun m name node hmem => fs.proper m name node (mem_filter.mp hmem).1

theorem get_removeEntry (fs : FileSystem) (l : Location) (hroot : l ≠ [])
    (hbare : fs.children l = []) (m : Location) :
    (fs.removeEntry l hroot hbare).get m = if l = m then none else fs.get m :=
  OrderedMap.get_delete fs.entries l m

theorem within_removeEntry (fs : FileSystem) (l : Location) (hroot : l ≠ [])
    (hbare : fs.children l = []) : Within (fs.removeEntry l hroot hbare) fs :=
  filter_sublist

theorem children_of_not_directory (h : fs.get l ≠ some .directory) : fs.children l = [] := by
  apply eq_nil_iff_forall_not_mem.mpr
  intro name hname
  obtain ⟨n, hn⟩ := mem_children.mp hname
  exact h (parent_directory hn)

theorem get_below_bare (h : fs.children l = []) {m : Location} (hm : l <+: m) (hne : l ≠ m) :
    fs.get m = none := by
  obtain ⟨p, rfl⟩ := hm
  cases p with
  | nil => exact absurd (append_nil l).symm hne
  | cons x p =>
    cases hget : fs.get (l ++ x :: p) with
    | none => rfl
    | some n =>
      have hx : ∃ m, fs.get (l ++ [x]) = some m := by
        cases p with
        | nil => exact ⟨n, hget⟩
        | cons y p =>
          rw [append_cons] at hget
          exact ⟨.directory, directory_above hget⟩
      have hchild := mem_children.mpr hx
      rw [h] at hchild
      exact absurd hchild not_mem_nil

end FileSystem

/-! ### Path names -/

/-- The components of a path name; an empty one is left by two slashes or one at an end. -/
def components (path : List Char) : List (List Char) := path.splitOn '/'

def start (loc : Location) (path : List Char) : Location :=
  if path.head? = some '/' then [] else loc

/-- Goes through the components until a link has to be followed, from which `jump` goes on with
the components that are left. -/
def walk (fs : FileSystem) (followLast : Bool)
    (jump : Location → List Char → List (List Char) → Option Location) :
    Location → List (List Char) → Option Location
  | loc, [] => some loc
  | loc, c :: cs =>
    if fs.get loc = some .directory then
      if c = [] ∨ c = ['.'] then walk fs followLast jump loc cs
      else if c = ['.', '.'] then walk fs followLast jump loc.dropLast cs
      else
        match fs.get (loc ++ [c]) with
        | none => none
        | some (.link target) =>
          if cs = [] ∧ followLast = false then some (loc ++ [c]) else jump loc target cs
        | some _ => walk fs followLast jump (loc ++ [c]) cs
    else none

/-- The location that a path name stands for, if no more path names than the first argument are
read on the way; the last argument is what follows the path name. -/
def resolveFrom (fs : FileSystem) (followLast : Bool) :
    ℕ → Location → List Char → List (List Char) → Option Location
  | 0, _, _, _ => none
  | n + 1, loc, path, rest =>
    if path = [] then none
    else walk fs followLast (resolveFrom fs followLast n) (start loc path)
      (components path ++ rest)

inductive Walks (fs : FileSystem) (followLast : Bool)
    (jump : Location → List Char → List (List Char) → Option Location) (l : Location) :
    Location → List (List Char) → Prop where
  | here : Walks fs followLast jump l l []
  | dot {loc c cs} (hdir : fs.get loc = some .directory) (hdot : c = [] ∨ c = ['.'])
      (hrest : Walks fs followLast jump l loc cs) : Walks fs followLast jump l loc (c :: cs)
  | up {loc cs} (hdir : fs.get loc = some .directory)
      (hrest : Walks fs followLast jump l loc.dropLast cs) :
      Walks fs followLast jump l loc (['.', '.'] :: cs)
  | entry {loc c cs n} (hdir : fs.get loc = some .directory) (hdot : ¬ (c = [] ∨ c = ['.']))
      (hup : c ≠ ['.', '.']) (hget : fs.get (loc ++ [c]) = some n) (hlink : ∀ t, n ≠ .link t)
      (hrest : Walks fs followLast jump l (loc ++ [c]) cs) :
      Walks fs followLast jump l loc (c :: cs)
  | last {loc c t} (hdir : fs.get loc = some .directory) (hdot : ¬ (c = [] ∨ c = ['.']))
      (hup : c ≠ ['.', '.']) (hget : fs.get (loc ++ [c]) = some (.link t))
      (hlast : followLast = false) (hl : loc ++ [c] = l) : Walks fs followLast jump l loc [c]
  | jump {loc c cs t} (hdir : fs.get loc = some .directory) (hdot : ¬ (c = [] ∨ c = ['.']))
      (hup : c ≠ ['.', '.']) (hget : fs.get (loc ++ [c]) = some (.link t))
      (hmid : ¬ (cs = [] ∧ followLast = false)) (hjump : jump loc t cs = some l) :
      Walks fs followLast jump l loc (c :: cs)

section Resolution

variable {fs fs' : FileSystem} {loc l : Location} {path name : List Char} {c : List Char}
  {rest cs : List (List Char)}
  {jump jump' : Location → List Char → List (List Char) → Option Location}

theorem components_append (path : List Char) (h : '/' ∉ name) :
    components (path ++ '/' :: name) = components path ++ [name] := by
  unfold components
  rw [splitOn_append_cons_self, splitOn_eq_singleton h]

theorem start_append (hpath : path ≠ []) : start loc (path ++ '/' :: name) = start loc path := by
  unfold start
  rw [head?_append_of_ne_nil path hpath]

variable {followLast : Bool}

theorem walk_of_walks (h : Walks fs followLast jump l loc cs) :
    walk fs followLast jump loc cs = some l := by
  induction h with
  | here => rfl
  | dot hdir hdot hrest ih =>
    unfold walk
    rw [if_pos hdir, if_pos hdot]
    exact ih
  | up hdir hrest ih =>
    unfold walk
    rw [if_pos hdir, if_neg (by simp), if_pos rfl]
    exact ih
  | @entry loc c cs n hdir hdot hup hget hlink hrest ih =>
    unfold walk
    rw [if_pos hdir, if_neg hdot, if_neg hup, hget]
    cases n with
    | directory => exact ih
    | file content => exact ih
    | link t => exact absurd rfl (hlink t)
  | last hdir hdot hup hget hlast hl =>
    unfold walk
    rw [if_pos hdir, if_neg hdot, if_neg hup, hget]
    exact (if_pos ⟨rfl, hlast⟩).trans (congrArg some hl)
  | jump hdir hdot hup hget hmid hjump =>
    unfold walk
    rw [if_pos hdir, if_neg hdot, if_neg hup, hget]
    exact (if_neg hmid).trans hjump

theorem walks_of_walk (cs : List (List Char)) (loc : Location)
    (h : walk fs followLast jump loc cs = some l) : Walks fs followLast jump l loc cs := by
  induction cs generalizing loc with
  | nil =>
    cases h
    exact .here
  | cons c cs ih =>
    unfold walk at h
    by_cases hdir : fs.get loc = some .directory
    · rw [if_pos hdir] at h
      by_cases hdot : c = [] ∨ c = ['.']
      · rw [if_pos hdot] at h
        exact .dot hdir hdot (ih loc h)
      · rw [if_neg hdot] at h
        by_cases hup : c = ['.', '.']
        · rw [if_pos hup] at h
          subst hup
          exact .up hdir (ih _ h)
        · rw [if_neg hup] at h
          cases hget : fs.get (loc ++ [c]) with
          | none =>
            rw [hget] at h
            cases h
          | some n =>
            rw [hget] at h
            cases n with
            | directory | file content => exact .entry hdir hdot hup hget (by simp) (ih _ h)
            | link t =>
              by_cases hlast : cs = [] ∧ followLast = false
              · obtain ⟨rfl, hlast⟩ := hlast
                have hl := (if_pos ⟨rfl, hlast⟩).symm.trans h
                exact .last hdir hdot hup hget hlast (Option.some.inj hl)
              · exact .jump hdir hdot hup hget hlast ((if_neg hlast).symm.trans h)
    · rw [if_neg hdir] at h
      cases h

theorem walk_eq_some :
    walk fs followLast jump loc cs = some l ↔ Walks fs followLast jump l loc cs :=
  ⟨walks_of_walk cs loc, walk_of_walks⟩

theorem Walks.within (h : FileSystem.Within fs fs')
    (hjump : ∀ loc t cs, jump loc t cs = some l → jump' loc t cs = some l)
    (hwalk : Walks fs followLast jump l loc cs) : Walks fs' followLast jump' l loc cs := by
  induction hwalk with
  | here => exact .here
  | dot hdir hdot hrest ih => exact .dot (h.get hdir) hdot ih
  | up hdir hrest ih => exact .up (h.get hdir) ih
  | entry hdir hdot hup hget hlink hrest ih =>
    exact .entry (h.get hdir) hdot hup (h.get hget) hlink ih
  | last hdir hdot hup hget hlast hl => exact .last (h.get hdir) hdot hup (h.get hget) hlast hl
  | jump hdir hdot hup hget hmid hj =>
    exact .jump (h.get hdir) hdot hup (h.get hget) hmid (hjump _ _ _ hj)

theorem resolveFrom_within (h : FileSystem.Within fs fs') (n : ℕ)
    (loc : Location) (path : List Char) (rest : List (List Char))
    (hres : resolveFrom fs followLast n loc path rest = some l) :
    resolveFrom fs' followLast n loc path rest = some l := by
  induction n generalizing loc path rest with
  | zero => cases hres
  | succ n ih =>
    unfold resolveFrom at hres ⊢
    split_ifs at hres ⊢
    exact walk_eq_some.mpr ((walk_eq_some.mp hres).within h ih)

theorem Walks.follow (hdir : fs.get l = some .directory)
    (hjump : ∀ loc t cs, jump loc t cs = some l → jump' loc t cs = some l)
    (hwalk : Walks fs false jump l loc cs) : Walks fs true jump' l loc cs := by
  induction hwalk with
  | here => exact .here
  | dot hd hdot hrest ih => exact .dot hd hdot ih
  | up hd hrest ih => exact .up hd ih
  | entry hd hdot hup hget hlink hrest ih => exact .entry hd hdot hup hget hlink ih
  | last hd hdot hup hget hlast hl =>
    rw [hl, hdir] at hget
    cases hget
  | jump hd hdot hup hget hmid hj => exact .jump hd hdot hup hget (by simp) (hjump _ _ _ hj)

theorem resolveFrom_follow (hdir : fs.get l = some .directory) (n : ℕ) (loc : Location)
    (path : List Char) (rest : List (List Char))
    (hres : resolveFrom fs false n loc path rest = some l) :
    resolveFrom fs true n loc path rest = some l := by
  induction n generalizing loc path rest with
  | zero => cases hres
  | succ n ih =>
    unfold resolveFrom at hres ⊢
    split_ifs at hres ⊢
    exact walk_eq_some.mpr ((walk_eq_some.mp hres).follow hdir ih)

theorem walk_name (hname : Proper name) (hdir : fs.get loc = some .directory) :
    walk fs false jump loc [name] = (fs.get (loc ++ [name])).map fun _ => loc ++ [name] := by
  unfold walk
  rw [if_pos hdir, if_neg (by rintro (h | h); exacts [hname.1 h, hname.2.1 h]),
    if_neg hname.2.2.1]
  cases fs.get (loc ++ [name]) with
  | none => rfl
  | some n =>
    cases n with
    | directory => rfl
    | file content => rfl
    | link t => exact if_pos ⟨rfl, rfl⟩

/-- One more name after a walk to a directory leads to its entry. -/
theorem Walks.append (hname : Proper name) (hdir : fs.get l = some .directory)
    (hjump : ∀ loc t cs, jump loc t cs = some l →
      jump' loc t (cs ++ [name]) = (fs.get (l ++ [name])).map fun _ => l ++ [name])
    (hwalk : Walks fs followLast jump l loc cs) :
    walk fs false jump' loc (cs ++ [name]) =
      (fs.get (l ++ [name])).map fun _ => l ++ [name] := by
  induction hwalk with
  | here => exact walk_name hname hdir
  | dot hd hdot hrest ih =>
    rw [cons_append, walk, if_pos hd, if_pos hdot]
    exact ih
  | up hd hrest ih =>
    rw [cons_append, walk, if_pos hd, if_neg (by simp), if_pos rfl]
    exact ih
  | @entry loc c cs n hd hdot hup hget hlink hrest ih =>
    rw [cons_append, walk, if_pos hd, if_neg hdot, if_neg hup, hget]
    cases n with
    | directory => exact ih
    | file content => exact ih
    | link t => exact absurd rfl (hlink t)
  | last hd hdot hup hget hlast hl =>
    rw [hl, hdir] at hget
    cases hget
  | jump hd hdot hup hget hmid hj =>
    rw [cons_append, walk, if_pos hd, if_neg hdot, if_neg hup, hget]
    exact (if_neg (by simp)).trans (hjump _ _ _ hj)

theorem resolveFrom_append (hname : Proper name)
    (hdir : fs.get l = some .directory) (n : ℕ) (loc : Location) (path : List Char)
    (rest : List (List Char)) (hres : resolveFrom fs followLast n loc path rest = some l) :
    resolveFrom fs false n loc path (rest ++ [name]) =
      (fs.get (l ++ [name])).map fun _ => l ++ [name] := by
  induction n generalizing loc path rest with
  | zero => cases hres
  | succ n ih =>
    unfold resolveFrom at hres ⊢
    split_ifs at hres ⊢
    rw [← append_assoc]
    exact (walk_eq_some.mp hres).append hname hdir ih

theorem resolveFrom_slash (hname : Proper name) (hpath : path ≠ []) (n : ℕ) (loc : Location) :
    resolveFrom fs followLast n loc (path ++ '/' :: name) [] =
      resolveFrom fs followLast n loc path [name] := by
  cases n with
  | zero => rfl
  | succ n =>
    unfold resolveFrom
    rw [if_neg (by simp), if_neg hpath, components_append path hname.2.2.2, start_append hpath,
      append_nil]

theorem resolveFrom_child (hname : Proper name) (hdir : fs.get l = some .directory) {n : ℕ}
    (hres : resolveFrom fs followLast n loc path [] = some l) :
    resolveFrom fs false n loc (path ++ '/' :: name) [] =
      (fs.get (l ++ [name])).map fun _ => l ++ [name] := by
  have hpath : path ≠ [] := by
    rintro rfl
    cases n with
    | zero => cases hres
    | succ n =>
      unfold resolveFrom at hres
      rw [if_pos rfl] at hres
      cases hres
  rw [resolveFrom_slash hname hpath]
  exact resolveFrom_append hname hdir n loc path [] hres

theorem Walks.exists_entry
    (hjump : ∀ loc t cs, fs.get loc = some .directory → jump loc t cs = some l →
      ∃ n, fs.get l = some n)
    (hwalk : Walks fs followLast jump l loc cs) (hloc : ∃ n, fs.get loc = some n) :
    ∃ n, fs.get l = some n := by
  induction hwalk with
  | here => exact hloc
  | dot hdir hdot hrest ih => exact ih hloc
  | @up loc cs hdir hrest ih =>
    apply ih
    induction loc using List.reverseRecOn with
    | nil => exact hloc
    | append_singleton loc x _ =>
      rw [dropLast_concat]
      exact ⟨.directory, FileSystem.parent_directory hdir⟩
  | entry hdir hdot hup hget hlink hrest ih => exact ih ⟨_, hget⟩
  | last hdir hdot hup hget hlast hl => exact hl ▸ ⟨_, hget⟩
  | jump hdir hdot hup hget hmid hj => exact hjump _ _ _ hdir hj

theorem Walks.directory (h : Walks fs followLast jump l loc (c :: cs)) :
    fs.get loc = some .directory := by
  cases h with
  | dot hdir => exact hdir
  | up hdir => exact hdir
  | entry hdir => exact hdir
  | last hdir => exact hdir
  | jump hdir => exact hdir

theorem resolveFrom_entry (n : ℕ) (loc : Location) (path : List Char)
    (rest : List (List Char)) (hres : resolveFrom fs followLast n loc path rest = some l) :
    ∃ n, fs.get l = some n := by
  induction n generalizing loc path rest with
  | zero => cases hres
  | succ n ih =>
    unfold resolveFrom at hres
    split_ifs at hres
    have hwalk := walk_eq_some.mp hres
    apply hwalk.exists_entry fun loc t cs _ => ih loc t cs
    cases hcomponents : components path with
    | nil => exact absurd hcomponents (splitOn_ne_nil _ _)
    | cons c cs =>
      rw [hcomponents, cons_append] at hwalk
      exact ⟨_, hwalk.directory⟩

end Resolution

end LinkedFiles
