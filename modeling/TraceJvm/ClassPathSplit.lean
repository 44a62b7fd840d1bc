import TraceJvm.ClassPath
import TraceJvm.JarDirectory

/-! When the entries of a class path are its components, and that a path that fails leaves nothing
allocated. -/
namespace TraceJvm

open ByteAccess BlockStore List Option

def components (path : List UInt8) : List (List UInt8) :=
  (path.splitOn pathSeparator).filter (· ≠ [])

def TidyPath (path : List UInt8) : Prop :=
  (pathSeparator :: path).IsChain fun a b => a = pathSeparator → b ≠ pathSeparator

def cutPieces : List UInt8 → List UInt8 → List (List UInt8)
  | acc, [] => if acc = [] then [] else [acc]
  | acc, c :: rest =>
      if c = pathSeparator ∧ acc ≠ [] then acc :: cutPieces [] rest
      else cutPieces (acc ++ [c]) rest

def Loads (host : JarHost) (mallocFails : ℕ → Bool) (entry : List UInt8) : Prop :=
  isJarName entry → ∃ jar, loadFilesystemJar host mallocFails (cString entry) = .ok jar

/-- All entries load, the first of them with number `k`. -/
def AllLoad (host : JarHost) (mallocFails : ℕ → ℕ → Bool) : ℕ → List (List UInt8) → Prop
  | _, [] => True
  | k, p :: ps => Loads host (mallocFails k) p ∧ AllLoad host mallocFails (k + 1) ps

/-- On success the entries are the components; on failure there are none, and what has been
allocated is free. -/
def InitRight (host : JarHost) (mallocFails : ℕ → ℕ → Bool) (path : List UInt8) (s : Store) :
    Prop :=
  ∃ error cp s', initClasspath host mallocFails path s = some (error, cp, s') ∧
    (error = none → cp.entries.map ClasspathEntry.name = components path) ∧
    (error ≠ none → cp.entries = [] ∧ s'.live.Perm s.live)

/-! ### What is owned -/

def OwnedJar.blocks (j : OwnedJar) : List ℕ :=
  j.nodes ++ (j.table :: (j.mapping.toList ++ [j.block]))

def jarBlocks : Option OwnedJar → List ℕ
  | none => []
  | some j => j.blocks

def ClasspathEntry.blocks (e : ClasspathEntry) : List ℕ := e.nameBlock :: jarBlocks e.jar

def Classpath.blocks (cp : Classpath) : List ℕ :=
  cp.entries.flatMap ClasspathEntry.blocks ++ (cp.entriesBlock.toList ++ cp.separatedBlock.toList)

variable {s : Store} {blocks rest : List ℕ}

theorem freeBlock_owns {block : Option ℕ} (h : Owns s (block.toList ++ blocks) rest) :
    ∃ s', freeBlock s block = some s' ∧ Owns s' blocks rest := by
  cases block with
  | none => exact ⟨s, rfl, h⟩
  | some block => exact Owns.free h

theorem own_owns {block table : ℕ} (jar : MappedJar)
    (h : Owns s (table :: block :: blocks) rest) :
    Owns (jar.own block table s).2 ((jar.own block table s).1.blocks ++ blocks) rest := by
  unfold MappedJar.own
  split
  · apply (h.alloc.allocMany jar.entries.length).perm
    unfold OwnedJar.blocks
    dsimp only
    rw [append_assoc]
    apply List.Perm.append_left
    exact List.Perm.swap _ _ _
  · apply (h.allocMany jar.entries.length).perm
    unfold OwnedJar.blocks
    dsimp only
    rw [append_assoc]
    exact List.Perm.refl _

theorem freeJarData_eq (j : OwnedJar) (s : Store) : freeJarData j s = freeBlock s j.mapping := by
  unfold freeJarData
  split
  · rename_i hheap
    split
    · rfl
    · rename_i hkept
      -- without a mapping there is nothing to free
      have hsome := j.mapped
      rw [hheap, eq_false_of_ne_true hkept] at hsome
      have hnone : j.mapping = none :=
        isNone_iff_eq_none.mp (isSome_eq_false_iff.mp hsome)
      rw [hnone]
      rfl
  · rfl

theorem freeJar_owns {j : OwnedJar} (h : Owns s (j.blocks ++ blocks) rest) :
    ∃ s', freeJar j s = some s' ∧ Owns s' blocks rest := by
  unfold OwnedJar.blocks at h
  rw [append_assoc] at h
  obtain ⟨s₁, h₁, hown₁⟩ := Owns.freeAll h
  rw [cons_append, append_assoc] at hown₁
  obtain ⟨s₂, h₂, hown₂⟩ := Owns.free hown₁
  obtain ⟨s₃, h₃, hown₃⟩ := freeBlock_owns hown₂
  obtain ⟨s₄, h₄, hown₄⟩ := Owns.free hown₃
  use s₄
  constructor
  · unfold freeJar
    rw [h₁, bind_eq_bind, bind_some, h₂, bind_some, freeJarData_eq, h₃]
    exact h₄
  · exact hown₄

theorem freeEntries_owns {entries : List ClasspathEntry}
    (h : Owns s (entries.flatMap ClasspathEntry.blocks ++ blocks) rest) :
    ∃ s', freeEntries entries s = some s' ∧ Owns s' blocks rest := by
  induction entries generalizing s with
  | nil => exact ⟨s, rfl, h⟩
  | cons e entries ih =>
    rw [flatMap_cons, append_assoc] at h
    obtain ⟨s₁, h₁, hown₁⟩ := Owns.free h
    unfold freeEntries
    rw [h₁, bind_eq_bind, bind_some]
    cases hjar : e.jar with
    | none =>
      rw [hjar] at hown₁
      exact ih hown₁
    | some j =>
      rw [hjar] at hown₁
      obtain ⟨s₂, h₂, hown₂⟩ := freeJar_owns hown₁
      dsimp only
      rw [h₂]
      exact ih hown₂

variable {cp : Classpath}

theorem freeClasspath_owns (h : Owns s cp.blocks rest) :
    ∃ s', freeClasspath cp s = some (.zero, s') ∧ s'.live.Perm rest := by
  obtain ⟨s₁, h₁, hown₁⟩ := freeEntries_owns h
  obtain ⟨s₂, h₂, hown₂⟩ := freeBlock_owns hown₁
  rw [← append_nil cp.separatedBlock.toList] at hown₂
  obtain ⟨s₃, h₃, hown₃⟩ := freeBlock_owns hown₂
  use s₃
  constructor
  · unfold freeClasspath
    rw [h₁, bind_eq_bind, bind_some, h₂, bind_some, h₃]
    rfl
  · exact hown₃

/-! ### One entry -/

structure Added (cp cp' : Classpath) (entry : List UInt8) (s' : Store) (rest : List ℕ) : Prop where
  names : cp'.entries.map ClasspathEntry.name = cp.entries.map ClasspathEntry.name ++ [entry]
  owns : Owns s' cp'.blocks rest

theorem putEntry_added (name : List UInt8) (jar : Option OwnedJar)
    (h : Owns s (jarBlocks jar ++ cp.blocks) rest) :
    Added cp (putEntry cp name jar s).1 name (putEntry cp name jar s).2 rest := by
  have hblocks (b : List ℕ) (e : ClasspathEntry) :
      ((cp.entries ++ [e]).flatMap ClasspathEntry.blocks ++ b).Perm
        (e.blocks ++ (cp.entries.flatMap ClasspathEntry.blocks ++ b)) := by
    rw [flatMap_append, flatMap_singleton, append_assoc, ← append_assoc, ← append_assoc]
    exact perm_append_comm.append_right b
  unfold Classpath.blocks at h
  unfold putEntry
  cases harray : cp.entriesBlock with
  | some b =>
    rw [harray] at h
    constructor
    · exact map_append
    · apply h.alloc.perm
      exact (hblocks _ ⟨name, s.alloc.1, jar⟩).symm
  | none =>
    rw [harray] at h
    constructor
    · exact map_append
    · apply h.alloc.alloc.perm
      -- the array comes after the entries
      apply List.Perm.trans _ (hblocks _ ⟨name, s.alloc.1, jar⟩).symm
      have hmiddle : ((ClasspathEntry.blocks ⟨name, s.alloc.1, jar⟩ ++
          cp.entries.flatMap ClasspathEntry.blocks) ++
            s.alloc.2.alloc.1 :: cp.separatedBlock.toList).Perm
          (s.alloc.2.alloc.1 :: ((ClasspathEntry.blocks ⟨name, s.alloc.1, jar⟩ ++
            cp.entries.flatMap ClasspathEntry.blocks) ++ cp.separatedBlock.toList)) :=
        perm_middle
      rw [append_assoc, append_assoc] at hmiddle
      exact hmiddle.symm

theorem addClasspathJar_spec (h : Owns s cp.blocks rest) (host : JarHost)
    (mallocFails : ℕ → Bool) (entry : List UInt8) :
    (∃ jar, loadFilesystemJar host mallocFails (cString entry) = .ok jar ∧
      ∃ cp' s', addClasspathJar host mallocFails cp entry s = some (none, cp', s') ∧
        Added cp cp' entry s' rest) ∨
    ((∀ jar, loadFilesystemJar host mallocFails (cString entry) ≠ .ok jar) ∧
      ∃ e s', addClasspathJar host mallocFails cp entry s = some (some e, cp, s') ∧
        Owns s' cp.blocks rest) := by
  have hown (jar : MappedJar) : ∃ s',
      (jar.own s.alloc.1 s.alloc.2.alloc.1 s.alloc.2.alloc.2.alloc.2).2.free
        s.alloc.2.alloc.2.alloc.1 = some s' ∧
      Owns s' ((jar.own s.alloc.1 s.alloc.2.alloc.1 s.alloc.2.alloc.2.alloc.2).1.blocks ++
        cp.blocks) rest := by
    have hlast : Owns s.alloc.2.alloc.2.alloc.2
        (s.alloc.2.alloc.1 :: s.alloc.1 :: s.alloc.2.alloc.2.alloc.1 :: cp.blocks) rest := by
      apply h.alloc.alloc.alloc.perm
      apply (List.Perm.swap _ _ _).trans
      exact (List.Perm.swap _ _ _).cons _
    have hjar := own_owns jar hlast
    exact Owns.free (hjar.perm perm_middle)
  have hsafe := loadFilesystemJar_ensures host mallocFails (cString entry)
  unfold addClasspathJar
  cases hload : loadFilesystemJar host mallocFails (cString entry) with
  | fault =>
    rw [hload] at hsafe
    exact hsafe.elim
  | error e =>
    right
    obtain ⟨s₁, h₁, hown₁⟩ := hown e.2
    obtain ⟨s₂, h₂, hown₂⟩ := freeJar_owns hown₁
    constructor
    · intro jar hjar
      cases hjar
    · use e.1, s₂
      constructor
      · dsimp only
        rw [h₁, bind_eq_bind, bind_some, h₂]
        rfl
      · exact hown₂
  | ok jar =>
    left
    obtain ⟨s₁, h₁, hown₁⟩ := hown jar
    use jar
    constructor
    · rfl
    · have hadded := putEntry_added entry (some _) hown₁
      refine ⟨_, _, ?_, hadded⟩
      dsimp only
      rw [h₁]
      rfl

/-- An entry that loads is added; one that does not leaves the class path as it was. -/
theorem addClasspathEntry_spec (h : Owns s cp.blocks rest) (host : JarHost)
    (mallocFails : ℕ → Bool) (entry : List UInt8) :
    (Loads host mallocFails entry ∧
      ∃ cp' s', addClasspathEntry host mallocFails cp entry s = some (none, cp', s') ∧
        Added cp cp' entry s' rest) ∨
    (¬ Loads host mallocFails entry ∧
      ∃ e s', addClasspathEntry host mallocFails cp entry s = some (some e, cp, s') ∧
        Owns s' cp.blocks rest) := by
  unfold addClasspathEntry Loads
  by_cases hname : isJarName entry
  · rw [if_pos hname]
    apply (addClasspathJar_spec h host mallocFails entry).imp
    · intro ⟨jar, hjar, hadded⟩
      exact ⟨fun _ => ⟨jar, hjar⟩, hadded⟩
    · intro ⟨hnone, hkept⟩
      constructor
      · intro hloads
        obtain ⟨jar, hjar⟩ := hloads hname
        exact hnone jar hjar
      · exact hkept
  · left
    rw [if_neg hname]
    constructor
    · intro hjar
      exact absurd hjar hname
    · use (putEntry cp entry none s).1, (putEntry cp entry none s).2
      constructor
      · rfl
      · exact putEntry_added entry none h

/-! ### All entries -/

def addAll (host : JarHost) (mallocFails : ℕ → ℕ → Bool) :
    List (List UInt8) → Classpath → Store → Option (Option JarError × Classpath × Store)
  | [], cp, s => some (none, cp, s)
  | p :: ps, cp, s =>
      match addClasspathEntry host (mallocFails cp.entries.length) cp p s with
      | none => none
      | some (some e, cp, s) => (freeClasspath cp s).map fun r => (some e, r)
      | some (none, cp, s) => addAll host mallocFails ps cp s

theorem addAll_spec (h : Owns s cp.blocks rest) (host : JarHost)
    (mallocFails : ℕ → ℕ → Bool) (pieces : List (List UInt8)) :
    (AllLoad host mallocFails cp.entries.length pieces ∧
      ∃ cp' s', addAll host mallocFails pieces cp s = some (none, cp', s') ∧
        cp'.entries.map ClasspathEntry.name = cp.entries.map ClasspathEntry.name ++ pieces) ∨
    (¬ AllLoad host mallocFails cp.entries.length pieces ∧
      ∃ e s', addAll host mallocFails pieces cp s = some (some e, .zero, s') ∧
        s'.live.Perm rest) := by
  induction pieces generalizing s cp with
  | nil =>
    left
    exact ⟨trivial, cp, s, rfl, (append_nil _).symm⟩
  | cons p ps ih =>
    unfold addAll AllLoad
    rcases addClasspathEntry_spec h host (mallocFails cp.entries.length) p with
      ⟨hloads, cp₁, s₁, hadd, hadded⟩ | ⟨hfails, e, s₁, hadd, hown⟩
    · rw [hadd]
      have hlength : cp₁.entries.length = cp.entries.length + 1 := by
        have hnames := congrArg List.length hadded.names
        rw [length_append, length_map, length_map] at hnames
        exact hnames
      rw [← hlength]
      apply (ih hadded.owns).imp
      · intro ⟨hall, cp', s', hrest, hnames⟩
        constructor
        · exact ⟨hloads, hall⟩
        · use cp', s', hrest
          rw [hnames, hadded.names, append_assoc]
          rfl
      · intro ⟨hnot, e, s', hrest, hfree⟩
        constructor
        · intro hall
          exact hnot hall.2
        · exact ⟨e, s', hrest, hfree⟩
    · right
      obtain ⟨s', hfree, hlive⟩ := freeClasspath_owns hown
      constructor
      · intro hall
        exact hfails hall.1
      · use e, s'
        constructor
        · rw [hadd]
          dsimp only
          rw [hfree]
          rfl
        · exact hlive

variable {path : List UInt8}

theorem take_succ_of_get {i start : ℕ} {c : UInt8} (hstart : start ≤ i) (hc : path[i]? = some c) :
    (path.drop start).take (i + 1 - start) = (path.drop start).take (i - start) ++ [c] := by
  have hsub : i + 1 - start = i - start + 1 := by omega
  have hget : (path.drop start)[i - start]? = some c := by
    rw [getElem?_drop, ← hc]
    congr 1
    omega
  rw [hsub, take_add_one, hget]
  rfl

/-- The scan of the path adds the pieces that it cuts, the first of which begins with what stands
between `start` and `i`. -/
theorem scanPath_eq_addAll (host : JarHost) (mallocFails : ℕ → ℕ → Bool) (path : List UInt8)
    (n i start : ℕ) (cp : Classpath) (s : Store) (hstart : start ≤ i) (hi : i + n = path.length) :
    scanPath host mallocFails path (n + 1) i start cp s =
      addAll host mallocFails (cutPieces ((path.drop start).take (i - start)) (path.drop i)) cp
        s := by
  induction n generalizing i start cp s with
  | zero =>
    have hend : i = path.length := hi
    have hdrop : path.drop i = [] := drop_eq_nil_of_le (Nat.le_of_eq hend.symm)
    rw [scanPath, if_pos (Or.inl hend), hdrop, cutPieces]
    dsimp only
    by_cases hacc : (path.drop start).take (i - start) = []
    · rw [if_pos hacc, if_pos (length_eq_zero_iff.mpr hacc)]
      rfl
    · rw [if_neg hacc, if_neg fun h => hacc (length_eq_zero_iff.mp h)]
      rfl
  | succ n ih =>
    have hlt : i < path.length := by omega
    have hget : path[i]? = some path[i] := getElem?_eq_getElem hlt
    have hdrop : path.drop i = path[i] :: path.drop (i + 1) := drop_eq_getElem_cons hlt
    have hsame := ih (i + 1) start cp s (Nat.le_succ_of_le hstart) (by omega)
    rw [take_succ_of_get hstart hget] at hsame
    rw [scanPath, hdrop, cutPieces, hget]
    by_cases hcolon : path[i] = pathSeparator
    · rw [if_pos (Or.inr (congrArg some hcolon))]
      dsimp only
      by_cases hacc : (path.drop start).take (i - start) = []
      · rw [if_pos (length_eq_zero_iff.mpr hacc), if_neg fun h => h.2 hacc]
        exact hsame
      · rw [if_neg fun h => hacc (length_eq_zero_iff.mp h), if_pos ⟨hcolon, hacc⟩, addAll]
        cases addClasspathEntry host (mallocFails cp.entries.length) cp
            ((path.drop start).take (i - start)) s with
        | none => rfl
        | some r =>
          obtain ⟨error, cp', s'⟩ := r
          cases error with
          | some e => rfl
          | none =>
            have hnext := ih (i + 1) (i + 1) cp' s' (Nat.le_refl _) (by omega)
            rw [Nat.sub_self, take_zero] at hnext
            exact hnext
    · have hneither : ¬ (i = path.length ∨ some path[i] = some pathSeparator) := by
        intro h
        rcases h with hend | hsep
        · omega
        · exact hcolon (some.inj hsep)
      rw [if_neg hneither, if_neg fun h => hcolon h.1]
      exact hsame

/-! ### The pieces and the components -/

variable {acc : List UInt8}

theorem components_of_not_mem (hacc : pathSeparator ∉ acc) :
    components acc = if acc = [] then [] else [acc] := by
  unfold components
  rw [splitOn_eq_singleton hacc]
  by_cases hempty : acc = []
  · simp only [hempty, if_true, filter_nil, ne_eq, not_true_eq_false, decide_false,
      filter_cons, Bool.false_eq_true, if_false]
  · simp only [hempty, if_false, filter_nil, ne_eq, not_false_eq_true, decide_true,
      filter_cons, if_true]

theorem components_append (hacc : pathSeparator ∉ acc) (hne : acc ≠ []) (path : List UInt8) :
    components (acc ++ pathSeparator :: path) = acc :: components path := by
  unfold components
  rw [splitOn_append_cons_self_of_not_mem hacc]
  simp only [hne, ne_eq, not_false_eq_true, decide_true, filter_cons, if_true]

theorem cutPieces_tidy {last : UInt8} (hacc : pathSeparator ∉ acc)
    (hlast : last = pathSeparator ↔ acc = [])
    (h : (last :: path).IsChain fun a b => a = pathSeparator → b ≠ pathSeparator) :
    cutPieces acc path = components (acc ++ path) := by
  induction path generalizing acc last with
  | nil =>
    rw [append_nil, components_of_not_mem hacc, cutPieces]
  | cons c path ih =>
    obtain ⟨hnext, hrest⟩ := isChain_cons_cons.mp h
    rw [cutPieces]
    by_cases hcolon : c = pathSeparator
    · have hne : acc ≠ [] := fun hempty => hnext (hlast.mpr hempty) hcolon
      have hih := ih not_mem_nil (iff_of_true hcolon rfl) hrest
      rw [if_pos ⟨hcolon, hne⟩, hih, hcolon, components_append hacc hne]
      rfl
    · have hmem : pathSeparator ∉ acc ++ [c] := by
        intro hmem
        rcases mem_append.mp hmem with hold | hnew
        · exact hacc hold
        · exact hcolon (mem_singleton.mp hnew).symm
      have hboth : c = pathSeparator ↔ acc ++ [c] = [] :=
        iff_of_false hcolon (append_ne_nil_of_right_ne_nil _ (cons_ne_nil _ _))
      rw [if_neg fun h => hcolon h.1, ih hmem hboth hrest, append_assoc]
      rfl

theorem cutPieces_of_colon (hacc : pathSeparator ∈ acc) :
    ∃ p ∈ cutPieces acc path, pathSeparator ∈ p := by
  have hne : acc ≠ [] := ne_nil_of_mem hacc
  induction path generalizing acc with
  | nil =>
    rw [cutPieces, if_neg hne]
    exact ⟨acc, mem_singleton_self acc, hacc⟩
  | cons c path ih =>
    rw [cutPieces]
    split
    · exact ⟨acc, mem_cons_self, hacc⟩
    · have hmem := mem_append_left [c] hacc
      exact ih hmem (ne_nil_of_mem hmem)

theorem cutPieces_untidy {last : UInt8} (hlast : last = pathSeparator ↔ acc = [])
    (h : ¬ (last :: path).IsChain fun a b => a = pathSeparator → b ≠ pathSeparator) :
    ∃ p ∈ cutPieces acc path, pathSeparator ∈ p := by
  induction path generalizing acc last with
  | nil => exact absurd (List.IsChain.singleton _) h
  | cons c path ih =>
    rw [cutPieces]
    rw [isChain_cons_cons, not_and] at h
    by_cases hcolon : c = pathSeparator
    · by_cases hempty : acc = []
      · rw [if_neg fun h => h.2 hempty]
        apply cutPieces_of_colon
        rw [hcolon]
        exact mem_append_right _ (mem_singleton_self _)
      · rw [if_pos ⟨hcolon, hempty⟩]
        have hrest := h fun hl => absurd (hlast.mp hl) hempty
        obtain ⟨p, hp, hmem⟩ := ih (iff_of_true hcolon rfl) hrest
        exact ⟨p, mem_cons_of_mem _ hp, hmem⟩
    · rw [if_neg fun h => hcolon h.1]
      apply ih _ (h fun _ => hcolon)
      exact iff_of_false hcolon (append_ne_nil_of_right_ne_nil _ (cons_ne_nil _ _))

/-- No component has a colon. -/
theorem not_mem_components {p : List UInt8} (hp : p ∈ components path) : pathSeparator ∉ p := by
  have hsplit : ∀ q ∈ path.splitOn pathSeparator, pathSeparator ∉ q := by
    clear hp
    induction path with
    | nil =>
      rw [splitOn_nil]
      exact forall_mem_singleton.mpr not_mem_nil
    | cons c path ih =>
      rw [splitOn_cons_eq_if_modifyHead]
      by_cases hcolon : c = pathSeparator
      · rw [if_pos (beq_iff_eq.mpr hcolon)]
        exact forall_mem_cons.mpr ⟨not_mem_nil, ih⟩
      · rw [if_neg fun h => hcolon (beq_iff_eq.mp h)]
        cases hsplit : path.splitOn pathSeparator with
        | nil => exact absurd hsplit (splitOn_ne_nil _ _)
        | cons q qs =>
          rw [hsplit] at ih
          obtain ⟨hq, hqs⟩ := forall_mem_cons.mp ih
          have hhead : pathSeparator ∉ c :: q := by
            intro hmem
            rcases mem_cons.mp hmem with heq | hold
            · exact hcolon heq.symm
            · exact hq hold
          exact forall_mem_cons.mpr ⟨hhead, hqs⟩
  exact hsplit p (mem_filter.mp hp).1

theorem cutPieces_eq_components_iff (path : List UInt8) :
    cutPieces [] path = components path ↔ TidyPath path := by
  constructor
  · intro heq
    by_contra htidy
    obtain ⟨p, hp, hmem⟩ := cutPieces_untidy (iff_of_true rfl rfl) htidy
    rw [heq] at hp
    exact not_mem_components hp hmem
  · intro htidy
    exact cutPieces_tidy not_mem_nil (iff_of_true rfl rfl) htidy

/-- The class path has the entries of the path, or has failed and holds nothing, exactly if no
component but the last is empty or one of the pieces is a JAR that does not load. -/
theorem init_classpath_right_iff (host : JarHost) (mallocFails : ℕ → ℕ → Bool)
    (path : List UInt8) (s : Store) :
    InitRight host mallocFails path s ↔
      TidyPath path ∨ ¬ AllLoad host mallocFails 0 (cutPieces [] path) := by
  have hscan := scanPath_eq_addAll host mallocFails path path.length 0 0
    ⟨[], none, path, some s.alloc.1⟩ s.alloc.2 (Nat.le_refl 0) (Nat.zero_add _)
  have hown : Owns s.alloc.2 (Classpath.blocks ⟨[], none, path, some s.alloc.1⟩) s.live :=
    List.Perm.refl _
  have hadd := addAll_spec hown host mallocFails (cutPieces [] path)
  have hinit : initClasspath host mallocFails path s =
      addAll host mallocFails (cutPieces [] path) ⟨[], none, path, some s.alloc.1⟩ s.alloc.2 :=
    hscan
  unfold InitRight
  rw [hinit]
  rcases hadd with ⟨hall, cp, s', hrun, hnames⟩ | ⟨hfails, e, s', hrun, hlive⟩
  · rw [hrun]
    have hnames' : cp.entries.map ClasspathEntry.name = cutPieces [] path := hnames
    constructor
    · intro ⟨error, cp₁, s₁, heq, hok, _⟩
      left
      cases heq
      apply (cutPieces_eq_components_iff path).mp
      rw [← hnames']
      exact hok rfl
    · intro hcond
      have htidy := hcond.resolve_right fun hnot => hnot hall
      refine ⟨none, cp, s', rfl, ?_, fun hne => absurd rfl hne⟩
      intro _
      rw [hnames']
      exact (cutPieces_eq_components_iff path).mpr htidy
  · apply iff_of_true
    · refine ⟨some e, .zero, s', hrun, fun hnone => ?_, fun _ => ⟨rfl, hlive⟩⟩
      cases hnone
    · exact Or.inr hfails

/-- The second colon of `a::b` becomes part of an entry. -/
theorem init_classpath_keeps_colon :
    ¬ InitRight ⟨true, fun _ => none, fun _ => false, fun _ => false⟩ (fun _ _ => false)
      [0x61, 0x3a, 0x3a, 0x62] ⟨0, []⟩ := by
  intro ⟨error, cp, s', h, hok, _⟩
  have hrun : initClasspath ⟨true, fun _ => none, fun _ => false, fun _ => false⟩
      (fun _ _ => false) [0x61, 0x3a, 0x3a, 0x62] ⟨0, []⟩ =
        some (none, ⟨[⟨[0x61], 1, none⟩, ⟨[0x3a, 0x62], 3, none⟩], some 2,
          [0x61, 0x3a, 0x3a, 0x62], some 0⟩, ⟨4, [3, 2, 1, 0]⟩) := rfl
  rw [hrun] at h
  cases h
  have hnames := hok rfl
  revert hnames
  decide

end TraceJvm
