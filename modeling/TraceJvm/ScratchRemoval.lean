import TraceJvm.Lib.LinkedFiles

/-! `removeTreeNoFollow` on a file system with symbolic links. The operations are those of the
interface `TraceJVMFileSystem`; any of them can be refused. -/
namespace TraceJvm

open LinkedFiles List Option FileSystem

inductive FileOperation where
  | lstat (path : List Char)
  | readdir (path : List Char)
  | rmdir (path : List Char)
  | unlink (path : List Char)

/-- What the file system rests on: the working directory, the number of links that are followed
in one path name, and what fails although the entries allow it. -/
structure FileHost where
  workingDirectory : Location
  linkLimit : ℕ
  permissions : Location → Fin 4096
  refuses : FileOperation → FileSystem → Bool

def fileTypeMask : ℕ := 0xf000
def directoryType : ℕ := 0x4000
def symbolicLinkType : ℕ := 0xa000

def nodeType : Node → ℕ
  | .directory => directoryType
  | .file _ => 0x8000
  | .link _ => symbolicLinkType

namespace FileHost

variable (h : FileHost)

def resolve (fs : FileSystem) (followLast : Bool) (path : List Char) : Option Location :=
  resolveFrom fs followLast (h.linkLimit + 1) h.workingDirectory path []

def lstat (fs : FileSystem) (path : List Char) : Option ℕ :=
  if h.refuses (.lstat path) fs then none
  else (h.resolve fs false path).bind fun l =>
    (fs.get l).map fun n => nodeType n ||| (h.permissions l).val

def readdir (fs : FileSystem) (path : List Char) : Option (List (List Char)) :=
  if h.refuses (.readdir path) fs then none
  else (h.resolve fs true path).bind fun l =>
    if fs.get l = some .directory then some (['.'] :: ['.', '.'] :: fs.children l) else none

def rmdir (fs : FileSystem) (path : List Char) : Option FileSystem :=
  if h.refuses (.rmdir path) fs then none
  else (h.resolve fs false path).bind fun l =>
    if hl : fs.get l = some .directory ∧ l ≠ [] ∧ fs.children l = [] then
      some (fs.removeEntry l hl.2.1 hl.2.2)
    else none

def unlink (fs : FileSystem) (path : List Char) : Option FileSystem :=
  if h.refuses (.unlink path) fs then none
  else (h.resolve fs false path).bind fun l =>
    if hl : fs.get l = some .directory then none
    else some (fs.removeEntry l (fun hroot => hl (hroot ▸ get_root)) (children_of_not_directory hl))

end FileHost

structure Removal where
  fs : FileSystem
  succeeded : Bool

def removeEntries (remove : FileSystem → List Char → Option Removal) (path : List Char) :
    List (List Char) → FileSystem → Option Removal
  | [], fs => some ⟨fs, true⟩
  | entry :: entries, fs =>
    if entry = ['.'] ∨ entry = ['.', '.'] then removeEntries remove path entries fs
    else (remove fs (path ++ '/' :: entry)).bind fun r =>
      (removeEntries remove path entries r.fs).map fun r' =>
        ⟨r'.fs, r.succeeded && r'.succeeded⟩

/-- `none` is only for the first argument, which bounds the depth of the calls. -/
def removeTreeNoFollow (h : FileHost) : ℕ → FileSystem → List Char → Option Removal
  | 0, _, _ => none
  | fuel + 1, fs, path =>
    match h.lstat fs path with
    | none => some ⟨fs, false⟩
    | some mode =>
      let type := mode &&& fileTypeMask
      if type = symbolicLinkType ∨ type ≠ directoryType then
        match h.unlink fs path with
        | none => some ⟨fs, false⟩
        | some fs' => some ⟨fs', true⟩
      else
        match h.readdir fs path with
        | none => some ⟨fs, false⟩
        | some entries =>
          (removeEntries (removeTreeNoFollow h fuel) path entries fs).map fun r =>
            match h.rmdir r.fs path with
            | none => ⟨r.fs, false⟩
            | some fs' => ⟨fs', r.succeeded⟩

section Operations

variable {h : FileHost} {fs fs' : FileSystem} {path : List Char} {l : Location} {mode : ℕ}

theorem mode_type (n : Node) (permissions : Fin 4096) :
    (nodeType n ||| permissions.val) &&& fileTypeMask = nodeType n := by
  have hlow : ∀ p : Fin 4096, p.val &&& fileTypeMask = 0 := by
    intro p
    apply Nat.eq_of_testBit_eq
    intro i
    rw [Nat.testBit_and, Nat.zero_testBit]
    rcases Nat.lt_or_ge i 12 with hi | hi
    · have hmask : ∀ i < 12, Nat.testBit fileTypeMask i = false := by decide
      rw [hmask i hi, Bool.and_false]
    · have hpow : 2 ^ 12 ≤ 2 ^ i := Nat.pow_le_pow_right (by decide) hi
      have hp : p.val < 2 ^ i := Nat.lt_of_lt_of_le p.isLt hpow
      rw [Nat.testBit_lt_two_pow hp, Bool.false_and]
  rw [Nat.and_or_distrib_right, hlow, Nat.or_zero]
  cases n with
  | directory => decide
  | file content => exact (by decide : 0x8000 &&& fileTypeMask = 0x8000)
  | link target => exact (by decide : symbolicLinkType &&& fileTypeMask = symbolicLinkType)

theorem nodeType_directory (n : Node) :
    (nodeType n = symbolicLinkType ∨ nodeType n ≠ directoryType) ↔ n ≠ .directory := by
  cases n with
  | directory | file content | link target => simp [nodeType, symbolicLinkType, directoryType]

theorem lstat_some (hstat : h.lstat fs path = some mode) :
    ∃ l n, h.resolve fs false path = some l ∧ fs.get l = some n ∧
      mode = nodeType n ||| (h.permissions l).val := by
  unfold FileHost.lstat at hstat
  split_ifs at hstat
  obtain ⟨l, hl, hmap⟩ := bind_eq_some_iff.mp hstat
  obtain ⟨n, hn, rfl⟩ := map_eq_some_iff.mp hmap
  exact ⟨l, n, hl, hn, rfl⟩

theorem readdir_some {names : List (List Char)} (hread : h.readdir fs path = some names) :
    ∃ l, h.resolve fs true path = some l ∧ names = ['.'] :: ['.', '.'] :: fs.children l := by
  unfold FileHost.readdir at hread
  split_ifs at hread
  obtain ⟨l, hl, hnames⟩ := bind_eq_some_iff.mp hread
  split_ifs at hnames
  exact ⟨l, hl, (some.inj hnames).symm⟩

structure TakesAway (fs fs' : FileSystem) (l : Location) : Prop where
  bare : fs.children l = []
  within : fs'.Within fs
  get : ∀ m, fs'.get m = if l = m then none else fs.get m

theorem rmdir_some (hrm : h.rmdir fs path = some fs') :
    ∃ l, h.resolve fs false path = some l ∧ TakesAway fs fs' l := by
  unfold FileHost.rmdir at hrm
  split_ifs at hrm
  obtain ⟨l, hl, hremove⟩ := bind_eq_some_iff.mp hrm
  split_ifs at hremove with hbare
  cases hremove
  exact ⟨l, hl, hbare.2.2, fs.within_removeEntry l _ _, fs.get_removeEntry l _ _⟩

theorem unlink_some (hunlink : h.unlink fs path = some fs') :
    ∃ l, h.resolve fs false path = some l ∧ TakesAway fs fs' l := by
  unfold FileHost.unlink at hunlink
  split_ifs at hunlink
  obtain ⟨l, hl, hremove⟩ := bind_eq_some_iff.mp hunlink
  split_ifs at hremove with hdir
  cases hremove
  exact ⟨l, hl, children_of_not_directory hdir, fs.within_removeEntry l _ _,
    fs.get_removeEntry l _ _⟩

theorem resolve_within {followLast : Bool} (hwithin : fs.Within fs')
    (hres : h.resolve fs followLast path = some l) : h.resolve fs' followLast path = some l :=
  resolveFrom_within hwithin _ _ _ _ hres

end Operations

structure RemovesAt (fs : FileSystem) (l : Location) (r : Removal) : Prop where
  within : r.fs.Within fs
  outside : ∀ m, ¬ l <+: m → r.fs.get m = fs.get m
  gone : r.succeeded = true → ∀ m, l <+: m → r.fs.get m = none

theorem RemovesAt.refused (fs : FileSystem) (l : Location) : RemovesAt fs l ⟨fs, false⟩ where
  within := .refl fs
  outside := fun _ _ => rfl
  gone := fun h => absurd h Bool.false_ne_true

variable {l : Location}

theorem TakesAway.removesAt {fs fs' : FileSystem} (h : TakesAway fs fs' l) :
    RemovesAt fs l ⟨fs', true⟩ where
  within := h.within
  outside := by
    intro m hm
    rw [h.get, if_neg]
    rintro rfl
    exact hm (prefix_refl l)
  gone := by
    intro _ m hm
    rw [h.get]
    split_ifs with hne
    · rfl
    · exact get_below_bare h.bare hm hne

structure RemovesNames (fs : FileSystem) (l : Location) (names : List (List Char)) (r : Removal) :
    Prop where
  within : r.fs.Within fs
  outside : ∀ m, ¬ l <+: m → r.fs.get m = fs.get m
  self : r.fs.get l = fs.get l
  gone : r.succeeded = true → ∀ name ∈ names, Proper name →
    ∀ m, l ++ [name] <+: m → r.fs.get m = none

theorem not_proper_dots {name : List Char} (h : name = ['.'] ∨ name = ['.', '.']) :
    ¬ Proper name := fun hp => h.elim hp.2.1 hp.2.2.1

theorem not_below_parent (l : Location) (name : List Char) : ¬ l ++ [name] <+: l := by
  intro hpre
  have hlen := hpre.length_le
  rw [length_append, length_singleton] at hlen
  omega

variable {path : List Char}

variable {remove : FileSystem → List Char → Option Removal}

/-- The loop, if every call that it makes does what the function does. -/
theorem removeEntries_spec (names : List (List Char)) (fs : FileSystem)
    (hnames : ∀ name ∈ names, name = ['.'] ∨ name = ['.', '.'] ∨ Proper name)
    (hremove : ∀ fs' : FileSystem, fs'.Within fs → ∀ name, Proper name →
      ∃ r, remove fs' (path ++ '/' :: name) = some r ∧ RemovesAt fs' (l ++ [name]) r) :
    ∃ r, removeEntries remove path names fs = some r ∧ RemovesNames fs l names r := by
  induction names generalizing fs with
  | nil =>
    refine ⟨⟨fs, true⟩, rfl, .refl fs, fun _ _ => rfl, rfl, fun _ name hname => ?_⟩
    exact absurd hname not_mem_nil
  | cons name names ih =>
    have htail : ∀ x ∈ names, x = ['.'] ∨ x = ['.', '.'] ∨ Proper x := fun x hx =>
      hnames x (mem_cons_of_mem name hx)
    unfold removeEntries
    by_cases hdots : name = ['.'] ∨ name = ['.', '.']
    · rw [if_pos hdots]
      obtain ⟨r, hr, hspec⟩ := ih fs htail hremove
      refine ⟨r, hr, hspec.within, hspec.outside, hspec.self, fun hok x hx hproper => ?_⟩
      rcases mem_cons.mp hx with rfl | hx
      · exact absurd hproper (not_proper_dots hdots)
      · exact hspec.gone hok x hx hproper
    · have hproper : Proper name := by
        rcases hnames name mem_cons_self with h | h | h
        · exact absurd (Or.inl h) hdots
        · exact absurd (Or.inr h) hdots
        · exact h
      obtain ⟨r, hr, hat⟩ := hremove fs (.refl fs) name hproper
      obtain ⟨r', hr', hspec⟩ := ih r.fs htail fun fs' hwithin =>
        hremove fs' (hwithin.trans hat.within)
      rw [if_neg hdots, hr]
      refine ⟨⟨r'.fs, r.succeeded && r'.succeeded⟩, by simp [hr'],
        hspec.within.trans hat.within, ?_, ?_, ?_⟩
      · intro m hm
        have hchild : ¬ l ++ [name] <+: m := fun hpre =>
          hm ((prefix_append l [name]).trans hpre)
        rw [hspec.outside m hm, hat.outside m hchild]
      · rw [hspec.self, hat.outside l (not_below_parent l name)]
      · intro hok x hx hx' m hm
        obtain ⟨hok₁, hok₂⟩ := Bool.and_eq_true_iff.mp hok
        rcases mem_cons.mp hx with rfl | hx
        · have hnone := hat.gone hok₁ m hm
          cases hget : r'.fs.get m with
          | none => rfl
          | some n => exact absurd (hspec.within.get hget) (by simp [hnone])
        · exact hspec.gone hok₂ x hx hx' m hm

theorem listed_proper (fs : FileSystem) (l : Location) :
    ∀ name ∈ ['.'] :: ['.', '.'] :: fs.children l,
      name = ['.'] ∨ name = ['.', '.'] ∨ Proper name := by
  intro name hname
  rcases mem_cons.mp hname with hdot | hname
  · exact Or.inl hdot
  · rcases mem_cons.mp hname with hup | hchild
    · exact Or.inr (Or.inl hup)
    · obtain ⟨n, hn⟩ := mem_children.mp hchild
      exact Or.inr (Or.inr (name_proper hn))

variable {fs : FileSystem}

variable {m : Location} {r : Removal}

/-- After the loop nothing is left below the directory, if all calls succeeded. -/
theorem RemovesNames.below (hspec : RemovesNames fs l (['.'] :: ['.', '.'] :: fs.children l) r)
    (hok : r.succeeded = true) (hm : l <+: m) (hne : l ≠ m) : r.fs.get m = none := by
  cases hget : r.fs.get m with
  | none => rfl
  | some n =>
    obtain ⟨p, rfl⟩ := hm
    cases p with
    | nil => exact absurd (append_nil l).symm hne
    | cons x p =>
      have hfs := hspec.within.get hget
      have hx : ∃ m, fs.get (l ++ [x]) = some m := by
        cases p with
        | nil => exact ⟨n, hfs⟩
        | cons y p =>
          rw [append_cons] at hfs
          exact ⟨.directory, directory_above hfs⟩
      obtain ⟨k, hk⟩ := hx
      have hmem : x ∈ ['.'] :: ['.', '.'] :: fs.children l :=
        mem_cons_of_mem _ (mem_cons_of_mem _ (mem_children.mpr ⟨k, hk⟩))
      have hnone := hspec.gone hok x hmem (name_proper hk) (l ++ x :: p) (by simp)
      rw [hget] at hnone
      cases hnone

/-- The loop of a call on a directory, if the calls with less depth do what they should. -/
theorem removeEntries_directory {h : FileHost} {fuel : ℕ} (hget : fs.get l = some .directory)
    (hres : h.resolve fs false path = some l) (hfuel : fs.sizeAt l ≤ fuel)
    (hcalls : ∀ fs path l, (∀ l', h.resolve fs false path = some l' → l' = l) →
      fs.sizeAt l < fuel →
      ∃ r, removeTreeNoFollow h fuel fs path = some r ∧ RemovesAt fs l r) :
    ∃ r, removeEntries (removeTreeNoFollow h fuel) path (['.'] :: ['.', '.'] :: fs.children l) fs =
        some r ∧ RemovesNames fs l (['.'] :: ['.', '.'] :: fs.children l) r := by
  apply removeEntries_spec _ fs (listed_proper fs l)
  intro fs' hwithin name hname
  apply hcalls
  · intro m hm
    have hchild := resolve_within hwithin hm
    rw [FileHost.resolve, resolveFrom_child hname hget hres] at hchild
    obtain ⟨_, -, hm⟩ := map_eq_some_iff.mp hchild
    exact hm.symm
  · have h₁ := hwithin.sizeAt (l ++ [name])
    have h₂ := sizeAt_child hget name
    omega

/-- A call removes at the only location that its path can stand for, and the entries there bound
its depth. -/
theorem removeTreeNoFollow_spec (h : FileHost) (fuel : ℕ) (fs : FileSystem) (path : List Char)
    (l : Location) (honly : ∀ l', h.resolve fs false path = some l' → l' = l)
    (hfuel : fs.sizeAt l < fuel) :
    ∃ r, removeTreeNoFollow h fuel fs path = some r ∧ RemovesAt fs l r := by
  induction fuel generalizing fs path l with
  | zero => exact absurd hfuel (Nat.not_lt_zero _)
  | succ fuel ih =>
    unfold removeTreeNoFollow
    cases hstat : h.lstat fs path with
    | none => exact ⟨_, rfl, .refused fs l⟩
    | some mode =>
      obtain ⟨l', n, hres, hget, rfl⟩ := lstat_some hstat
      obtain rfl := honly l' hres
      dsimp only
      rw [mode_type]
      by_cases htype : n = .directory
      · rw [if_neg fun hor => (nodeType_directory n).mp hor htype]
        cases hread : h.readdir fs path with
        | none => exact ⟨_, rfl, .refused fs l'⟩
        | some names =>
          rw [htype] at hget
          obtain ⟨l'', hfollow, rfl⟩ := readdir_some hread
          have hsame : h.resolve fs true path = some l' := resolveFrom_follow hget _ _ _ _ hres
          cases hfollow.symm.trans hsame
          obtain ⟨r, hr, hspec⟩ :=
            removeEntries_directory hget hres (Nat.le_of_lt_succ hfuel) ih
          dsimp only
          rw [hr]
          cases hrm : h.rmdir r.fs path with
          | none =>
            refine ⟨⟨r.fs, false⟩, by simp [hrm], hspec.within, hspec.outside, fun hok => ?_⟩
            exact absurd hok Bool.false_ne_true
          | some fs' =>
            obtain ⟨m, hm, htakes⟩ := rmdir_some hrm
            obtain rfl := honly m (resolve_within hspec.within hm)
            have hat := htakes.removesAt
            refine ⟨⟨fs', r.succeeded⟩, by simp [hrm], hat.within.trans hspec.within, ?_, ?_⟩
            · intro k hk
              rw [hat.outside k hk, hspec.outside k hk]
            · intro _ k hk
              exact hat.gone rfl k hk
      · rw [if_pos ((nodeType_directory n).mpr htype)]
        cases hunlink : h.unlink fs path with
        | none => exact ⟨_, rfl, .refused fs l'⟩
        | some fs' =>
          obtain ⟨m, hm, htakes⟩ := unlink_some hunlink
          obtain rfl := honly m hm
          exact ⟨_, rfl, htakes.removesAt⟩

theorem removeEntries_mono {remove' : FileSystem → List Char → Option Removal} (hmono : ∀ fs path r,
    remove fs path = some r → remove' fs path = some r)
    (names : List (List Char)) (fs : FileSystem) (r : Removal)
    (h : removeEntries remove path names fs = some r) :
    removeEntries remove' path names fs = some r := by
  induction names generalizing fs r with
  | nil => exact h
  | cons name names ih =>
    unfold removeEntries at h ⊢
    split_ifs at h ⊢
    · exact ih fs r h
    · obtain ⟨r₁, hr₁, hmap⟩ := bind_eq_some_iff.mp h
      obtain ⟨r₂, hr₂, rfl⟩ := map_eq_some_iff.mp hmap
      rw [hmono _ _ _ hr₁]
      show Option.map _ (removeEntries remove' path names r₁.fs) = _
      rw [ih _ _ hr₂]
      rfl

theorem removeTreeNoFollow_mono (h : FileHost) (fuel : ℕ) (fs : FileSystem) (path : List Char)
    (r : Removal) (hr : removeTreeNoFollow h fuel fs path = some r) :
    removeTreeNoFollow h (fuel + 1) fs path = some r := by
  induction fuel generalizing fs path r with
  | zero => cases hr
  | succ fuel ih =>
    unfold removeTreeNoFollow at hr ⊢
    cases hstat : h.lstat fs path with
    | none =>
      rw [hstat] at hr
      exact hr
    | some mode =>
      rw [hstat] at hr
      dsimp only at hr ⊢
      split_ifs at hr ⊢
      · exact hr
      · cases hread : h.readdir fs path with
        | none =>
          rw [hread] at hr
          exact hr
        | some names =>
          rw [hread] at hr
          obtain ⟨r₁, hr₁, rfl⟩ := map_eq_some_iff.mp hr
          exact map_eq_some_iff.mpr ⟨r₁, removeEntries_mono ih names fs r₁ hr₁, rfl⟩

theorem removeTreeNoFollow_of_le {h : FileHost} {fuel fuel' : ℕ} (hle : fuel ≤ fuel')
    (hr : removeTreeNoFollow h fuel fs path = some r) :
    removeTreeNoFollow h fuel' fs path = some r := by
  induction hle with
  | refl => exact hr
  | step _ ih => exact removeTreeNoFollow_mono h _ fs path r ih

inductive ReachedNoFollow (fs : FileSystem) (l : Location) : Location → Prop where
  | self {n} (hget : fs.get l = some n) : ReachedNoFollow fs l l
  | entry {m name n} (hm : ReachedNoFollow fs l m) (hdir : fs.get m = some .directory)
      (hget : fs.get (m ++ [name]) = some n) : ReachedNoFollow fs l (m ++ [name])

theorem reachedNoFollow_below {l : Location} (h : ReachedNoFollow fs l m) : l <+: m := by
  induction h with
  | self => exact prefix_refl l
  | entry _ _ _ ih => exact ih.trans (prefix_append _ _)

theorem reachedNoFollow_of_get {n : Node} (p : Location)
    (h : fs.get (l ++ p) = some n) : ReachedNoFollow fs l (l ++ p) := by
  induction p using List.reverseRecOn generalizing n with
  | nil =>
    rw [append_nil] at h ⊢
    exact .self h
  | append_singleton p name ih =>
    rw [← append_assoc] at h ⊢
    have hdir := parent_directory h
    exact .entry (ih hdir) hdir h

theorem RemovesAt.frame {l : Location} (h : RemovesAt fs l r)
    (hm : ¬ ReachedNoFollow fs l m) : r.fs.get m = fs.get m := by
  by_cases hpre : l <+: m
  · obtain ⟨p, rfl⟩ := hpre
    cases hget : fs.get (l ++ p) with
    | some n => exact absurd (reachedNoFollow_of_get p hget) hm
    | none =>
      cases hleft : r.fs.get (l ++ p) with
      | none => rfl
      | some n => exact absurd (h.within.get hleft) (by simp [hget])
  · exact h.outside m hpre

/-- The path of an entry that keeps its meaning as long as the entry is there. -/
def Leads (h : FileHost) (fs : FileSystem) (path : List Char) (l : Location) : Prop :=
  ∀ fs' : FileSystem, fs'.Within fs → ∀ n, fs'.get l = some n → h.resolve fs' false path = some l

theorem Leads.within {h : FileHost} {fs fs' : FileSystem}
    (hleads : Leads h fs path l) (hwithin : fs'.Within fs) : Leads h fs' path l :=
  fun fs'' hw => hleads fs'' (hw.trans hwithin)

theorem Leads.child {h : FileHost} {path name : List Char}
    (hleads : Leads h fs path l) (hname : Proper name) :
    Leads h fs (path ++ '/' :: name) (l ++ [name]) := by
  intro fs' hwithin n hn
  have hdir := parent_directory hn
  rw [FileHost.resolve, resolveFrom_child hname hdir (hleads fs' hwithin _ hdir), hn]
  rfl

/-- If all calls of the loop succeed on entries that are there, so does the loop. -/
theorem removeEntries_succeeds (names : List (List Char)) (fs : FileSystem) (hnodup : names.Nodup)
    (hnames : ∀ name ∈ names, name = ['.'] ∨ name = ['.', '.'] ∨ ∃ n, fs.get (l ++ [name]) = some n)
    (hremove : ∀ fs' : FileSystem, fs'.Within fs → ∀ name n, fs'.get (l ++ [name]) = some n →
      ∃ r, remove fs' (path ++ '/' :: name) = some r ∧ RemovesAt fs' (l ++ [name]) r ∧
        r.succeeded = true) :
    ∃ r, removeEntries remove path names fs = some r ∧ r.succeeded = true := by
  induction names generalizing fs with
  | nil => exact ⟨⟨fs, true⟩, rfl, rfl⟩
  | cons name names ih =>
    obtain ⟨hfresh, hnodup⟩ := nodup_cons.mp hnodup
    unfold removeEntries
    by_cases hdots : name = ['.'] ∨ name = ['.', '.']
    · rw [if_pos hdots]
      exact ih fs hnodup (fun x hx => hnames x (mem_cons_of_mem name hx)) hremove
    · obtain ⟨n, hn⟩ : ∃ n, fs.get (l ++ [name]) = some n := by
        rcases hnames name mem_cons_self with h | h | h
        · exact absurd (Or.inl h) hdots
        · exact absurd (Or.inr h) hdots
        · exact h
      obtain ⟨r, hr, hat, hok⟩ := hremove fs (.refl fs) name n hn
      have hrest : ∀ x ∈ names, x = ['.'] ∨ x = ['.', '.'] ∨
          ∃ n, r.fs.get (l ++ [x]) = some n := by
        intro x hx
        rcases hnames x (mem_cons_of_mem name hx) with h | h | ⟨k, hk⟩
        · exact Or.inl h
        · exact Or.inr (Or.inl h)
        · refine Or.inr (Or.inr ⟨k, ?_⟩)
          rw [hat.outside, hk]
          -- the names of two children are as long as each other
          intro hpre
          have heq := hpre.eq_of_length (by simp)
          obtain rfl : name = x := by simpa using heq
          exact hfresh hx
      obtain ⟨r', hr', hok'⟩ := ih r.fs hnodup hrest fun fs' hwithin =>
        hremove fs' (hwithin.trans hat.within)
      rw [if_neg hdots, hr]
      exact ⟨⟨r'.fs, r.succeeded && r'.succeeded⟩, by simp [hr'], by simp [hok, hok']⟩

theorem nodup_listed (fs : FileSystem) (l : Location) :
    (['.'] :: ['.', '.'] :: fs.children l).Nodup := by
  have hproper : ∀ name ∈ fs.children l, Proper name := by
    intro name hname
    obtain ⟨n, hn⟩ := mem_children.mp hname
    exact name_proper hn
  apply nodup_cons.mpr
  refine ⟨fun hmem => ?_, nodup_cons.mpr ⟨fun hmem => ?_, fs.nodup_children l⟩⟩
  · rcases mem_cons.mp hmem with h | h
    · exact absurd h (by decide)
    · exact (hproper _ h).2.1 rfl
  · exact (hproper _ hmem).2.2.1 rfl

/-- Nothing fails on a path that keeps its meaning, if the host refuses nothing. -/
theorem removeTreeNoFollow_succeeds (h : FileHost) (hrefuses : ∀ op fs, h.refuses op fs = false)
    (fuel : ℕ) (fs : FileSystem) (path : List Char) (l : Location) (n : Node)
    (hleads : Leads h fs path l) (hget : fs.get l = some n) (hl : l ≠ [])
    (hfuel : fs.sizeAt l < fuel) :
    ∃ r, removeTreeNoFollow h fuel fs path = some r ∧ RemovesAt fs l r ∧ r.succeeded = true := by
  induction fuel generalizing fs path l n with
  | zero => exact absurd hfuel (Nat.not_lt_zero _)
  | succ fuel ih =>
    have hres : h.resolve fs false path = some l := hleads fs (.refl fs) n hget
    obtain ⟨r, hr, hat⟩ := removeTreeNoFollow_spec h (fuel + 1) fs path l
      (fun l' hl' => some.inj (hl'.symm.trans hres)) hfuel
    refine ⟨r, hr, hat, ?_⟩
    have hstat : h.lstat fs path = some (nodeType n ||| (h.permissions l).val) := by
      simp [FileHost.lstat, hrefuses, hres, hget]
    unfold removeTreeNoFollow at hr
    rw [hstat] at hr
    dsimp only at hr
    rw [mode_type] at hr
    by_cases htype : n = .directory
    · subst htype
      have hfollow : h.resolve fs true path = some l := resolveFrom_follow hget _ _ _ _ hres
      have hread : h.readdir fs path = some (['.'] :: ['.', '.'] :: fs.children l) := by
        simp [FileHost.readdir, hrefuses, hfollow, hget]
      rw [if_neg fun hor => (nodeType_directory _).mp hor rfl, hread] at hr
      have hcalls : ∀ fs' : FileSystem, fs'.Within fs → ∀ name n,
          fs'.get (l ++ [name]) = some n →
          ∃ r, removeTreeNoFollow h fuel fs' (path ++ '/' :: name) = some r ∧
            RemovesAt fs' (l ++ [name]) r ∧ r.succeeded = true := by
        intro fs' hwithin name n hn
        apply ih fs' _ _ n ((hleads.child (name_proper hn)).within hwithin) hn (by simp)
        have h₁ := hwithin.sizeAt (l ++ [name])
        have h₂ := sizeAt_child hget name
        omega
      have hlisted : ∀ name ∈ ['.'] :: ['.', '.'] :: fs.children l,
          name = ['.'] ∨ name = ['.', '.'] ∨ ∃ n, fs.get (l ++ [name]) = some n := by
        intro name hname
        simp only [mem_cons] at hname
        rcases hname with h | h | h
        · exact Or.inl h
        · exact Or.inr (Or.inl h)
        · exact Or.inr (Or.inr (mem_children.mp h))
      obtain ⟨r₁, hr₁, hok⟩ := removeEntries_succeeds _ fs (nodup_listed fs l) hlisted hcalls
      obtain ⟨r₂, hr₂, hspec⟩ := removeEntries_directory hget hres (Nat.le_of_lt_succ hfuel)
        (removeTreeNoFollow_spec h fuel)
      cases hr₁.symm.trans hr₂
      have hself : r₁.fs.get l = some .directory := hspec.self.trans hget
      have hbare : r₁.fs.children l = [] := by
        apply eq_nil_iff_forall_not_mem.mpr
        intro name hname
        obtain ⟨n, hn⟩ := mem_children.mp hname
        rw [hspec.below hok (prefix_append l [name]) (by simp)] at hn
        cases hn
      have hrm : ∃ fs', h.rmdir r₁.fs path = some fs' := by
        simp [FileHost.rmdir, hrefuses, hleads r₁.fs hspec.within _ hself, hself, hbare, hl]
      obtain ⟨fs', hfs'⟩ := hrm
      dsimp only at hr
      rw [hr₁, map_some, hfs'] at hr
      cases hr
      exact hok
    · have hunlink : ∃ fs', h.unlink fs path = some fs' := by
        simp [FileHost.unlink, hrefuses, hres, hget, htype]
      obtain ⟨fs', hfs'⟩ := hunlink
      rw [if_pos ((nodeType_directory n).mpr htype), hfs'] at hr
      cases hr
      rfl

/-- A call ends with depth enough for the entries of the file system. It leaves alone what is not
reached from the location of its path, which it does not leave in parts if nothing failed. -/
theorem removeTreeNoFollow_exact (h : FileHost) (fs : FileSystem) (path : List Char) :
    ∃ r, (∀ fuel > fs.entries.length, removeTreeNoFollow h fuel fs path = some r) ∧
      match h.resolve fs false path with
      | none => r = ⟨fs, false⟩
      | some l =>
        (∀ m, ¬ ReachedNoFollow fs l m → r.fs.get m = fs.get m) ∧
        (∀ m, r.fs.get m = none ∨ r.fs.get m = fs.get m) ∧
        (r.succeeded = true → ∀ m, ReachedNoFollow fs l m → r.fs.get m = none) ∧
        (l ≠ [] → Leads h fs path l → (∀ op fs', h.refuses op fs' = false) →
          r.succeeded = true) := by
  cases hres : h.resolve fs false path with
  | none =>
    refine ⟨⟨fs, false⟩, fun fuel hfuel => ?_, rfl⟩
    obtain ⟨k, rfl⟩ := Nat.exists_eq_succ_of_ne_zero (Nat.ne_zero_of_lt hfuel)
    have hstat : h.lstat fs path = none := by
      simp [FileHost.lstat, hres]
    rw [removeTreeNoFollow, hstat]
  | some l =>
    have hsize : fs.sizeAt l < fs.entries.length + 1 := Nat.lt_succ_of_le (fs.sizeAt_le l)
    obtain ⟨r, hr, hat⟩ := removeTreeNoFollow_spec h (fs.entries.length + 1) fs path l
      (fun l' hl' => some.inj (hl'.symm.trans hres)) hsize
    refine ⟨r, fun fuel hfuel => removeTreeNoFollow_of_le hfuel hr, fun m hm => hat.frame hm,
      ?_, fun hok m hm => hat.gone hok m (reachedNoFollow_below hm), ?_⟩
    · intro m
      cases hleft : r.fs.get m with
      | none => exact Or.inl rfl
      | some n => exact Or.inr (hat.within.get hleft).symm
    · intro hl hleads hrefuses
      obtain ⟨n, hn⟩ := resolveFrom_entry _ _ _ _ hres
      obtain ⟨r', hr', -, hok⟩ := removeTreeNoFollow_succeeds h hrefuses _ fs path l n hleads hn hl
        hsize
      cases hr.symm.trans hr'
      exact hok

end TraceJvm
