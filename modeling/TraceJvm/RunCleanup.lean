import TraceJvm.RunFiles
import Mathlib.Data.List.Induction

/-! The cleanup of a run restores the file system unless the installation of the inputs fails: it
stands before the `try` whose `finally` cleans up. -/
namespace TraceJvm

open Function List

open FileTree (isDirectory Bare)
open Transition

namespace FsTree

variable {h : Host} {fs fs' : FsTree} {p q : FsPath} {content : List UInt8}

/-! ### One operation -/

theorem bare_of_not_directory {x : Option FsTree} (hx : isDirectory x = false) : Bare x := by
  intro k r
  cases x with
  | none => rfl
  | some n =>
    cases n with
    | file c => rfl
    | directory es => cases hx

/-- An operation on the file at a path: nothing, or an exchange of what is no directory. -/
inductive Touched (p : FsPath) (fs : FsTree) : FsTree → Prop where
  | same : Touched p fs fs
  | put (new : Option FsTree) (hold : isDirectory (fs.get p) = false)
      (hnew : isDirectory new = false) : Touched p fs (fs.put p new)

namespace Touched

theorem contentAt (ht : Touched p fs fs') (hne : q ≠ p) : fs'.contentAt q = fs.contentAt q := by
  cases ht with
  | same => rfl
  | put new hold hnew =>
    exact FileTree.contentAt_put_of_ne (bare_of_not_directory hold) (bare_of_not_directory hnew) hne

theorem get_beside (ht : Touched p fs fs') (h₁ : ¬ p <+: q) (h₂ : ¬ q <+: p) :
    fs'.get q = fs.get q := by
  cases ht with
  | same => rfl
  | put new hold hnew => exact FileTree.get_put_beside h₁ h₂

theorem isDirectory (ht : Touched p fs fs') (hq : FileTree.isDirectory (fs.get q) = true) :
    FileTree.isDirectory (fs'.get q) = true := by
  cases ht with
  | same => exact hq
  | put new hold hnew =>
    apply FileTree.isDirectory_get_put (bare_of_not_directory hold) hq
    rintro rfl
    rw [hold] at hq
    cases hq

theorem not_isDirectory (ht : Touched p fs fs') (hp : p ≠ [])
    (hq : FileTree.isDirectory (fs.get q) = false) : FileTree.isDirectory (fs'.get q) = false := by
  cases ht with
  | same => exact hq
  | put new hold hnew =>
    by_cases heq : q = p
    · rw [heq]
      rcases FileTree.get_put_cases fs new hp with hget | hget
      · rw [hget]
        exact hnew
      · rw [hget]
        rfl
    · apply Bool.eq_false_iff.mpr
      intro hdir
      rw [FileTree.isDirectory_of_get_put (bare_of_not_directory hnew) heq hdir] at hq
      cases hq

theorem isSome (ht : Touched p fs fs') (hq : (fs.get q).isSome) (hne : q ≠ p) :
    (fs'.get q).isSome := by
  cases ht with
  | same => exact hq
  | put new hold hnew =>
    exact FileTree.isSome_get_put (bare_of_not_directory hold) hq (.inl hne)

end Touched

theorem touched_writeFile (h : Host) (fs : FsTree) (p : FsPath) (content : List UInt8) :
    Touched p fs (writeFile h fs p content).2 := by
  unfold writeFile
  split
  · exact .same
  · rename_i hfree
    simp only [Bool.or_eq_true, not_or, Bool.not_eq_true] at hfree
    split
    · exact .put _ hfree.2 rfl
    · exact .same
    · exact .put _ hfree.2 rfl

theorem touched_unlink (h : Host) (fs : FsTree) (p : FsPath) :
    Touched p fs (unlink h fs p).2 := by
  unfold unlink
  split
  · exact .same
  · rename_i c hc
    split
    · exact .same
    · refine .put _ ?_ rfl
      cases hdir : FileTree.isDirectory (fs.get p) with
      | false => rfl
      | true =>
        rw [FileTree.contentAt_eq_none hdir] at hc
        cases hc

structure Writable (fs : FsTree) (p : FsPath) : Prop where
  ne_nil : p ≠ []
  parent : isDirectory (fs.get p.dropLast) = true
  free : isDirectory (fs.get p) = false

theorem get_of_contentAt {c : List UInt8} (hc : fs.contentAt p = some c) :
    fs.get p = some (.file c) := by
  unfold FileTree.contentAt at hc
  split at hc
  · rename_i c' hget
    cases hc
    exact hget
  · cases hc

theorem writable_of_contentAt (hp : p ≠ []) {c : List UInt8} (hc : fs.contentAt p = some c) :
    fs.Writable p := by
  have hfile := get_of_contentAt hc
  refine ⟨hp, ?_, by rw [hfile]; rfl⟩
  apply FileTree.isDirectory_of_isSome (k := p.getLast hp)
  rw [dropLast_concat_getLast hp, hfile]
  rfl

theorem contentAt_put_file (hw : fs.Writable p) :
    (fs.put p (some (.file content))).contentAt p = some content := by
  have hself := FileTree.get_put_self fs p.dropLast (p.getLast hw.ne_nil) (some (.file content))
  rw [dropLast_concat_getLast hw.ne_nil, if_pos hw.parent] at hself
  rw [FileTree.contentAt, hself]

theorem contentAt_put_none (hp : p ≠ []) : (fs.put p none).contentAt p = none := by
  rw [FileTree.contentAt]
  rcases FileTree.get_put_cases fs none hp with heq | heq <;> rw [heq]

theorem writeFile_willing (hw : fs.Writable p) :
    writeFile .willing fs p content = (true, fs.put p (some (.file content))) := by
  rw [writeFile, hw.parent, hw.free]
  rfl

theorem writeFile_done (hdone : (writeFile h fs p content).1 = true) (hp : p ≠ []) :
    (writeFile h fs p content).2.contentAt p = some content := by
  unfold writeFile at hdone ⊢
  split at hdone
  · cases hdone
  · rename_i hfree
    rw [if_neg hfree]
    simp only [Bool.or_eq_true, not_or, Bool.not_eq_true, Bool.not_eq_false'] at hfree
    cases hwrite : h.write with
    | done => exact contentAt_put_file ⟨hp, hfree.1, hfree.2⟩
    | refused | torn rest =>
      rw [hwrite] at hdone
      cases hdone

theorem Touched.writable (ht : Touched p fs fs') (hp : p ≠ []) (hw : fs.Writable q) :
    fs'.Writable q :=
  ⟨hw.ne_nil, ht.isDirectory hw.parent, ht.not_isDirectory hp hw.free⟩

/-! ### Restoring -/

section Restore

variable {file : InstalledProcessFile}

theorem touched_restore (fs : FsTree) (file : InstalledProcessFile) :
    ∃ fs₁, Touched file.path fs fs₁ ∧ Touched file.path fs₁ (restoreProcessFile fs file) := by
  refine ⟨_, touched_unlink .willing fs file.path, ?_⟩
  unfold restoreProcessFile
  dsimp only
  split
  · exact .same
  · exact touched_writeFile ..

theorem unlink_willing (fs : FsTree) (p : FsPath) (hp : p ≠ []) :
    (unlink .willing fs p).2.contentAt p = none := by
  unfold unlink
  split
  · rename_i hnone
    exact hnone
  · exact contentAt_put_none hp

theorem contentAt_restore (hw : fs.Writable file.path) :
    (restoreProcessFile fs file).contentAt = update fs.contentAt file.path file.priorContent := by
  funext q
  obtain ⟨fs₁, hfirst, hsecond⟩ := touched_restore fs file
  by_cases hq : q = file.path
  · rw [hq, update_self]
    unfold restoreProcessFile
    dsimp only
    cases hprior : file.priorContent with
    | none => exact unlink_willing fs file.path hw.ne_nil
    | some content =>
      dsimp only
      have hw₁ := (touched_unlink .willing fs file.path).writable hw.ne_nil hw
      rw [writeFile_willing hw₁]
      exact contentAt_put_file hw₁
  · rw [update_of_ne hq, hsecond.contentAt hq, hfirst.contentAt hq]

theorem writable_restore (hp : file.path ≠ []) (hw : fs.Writable q) :
    (restoreProcessFile fs file).Writable q := by
  obtain ⟨fs₁, hfirst, hsecond⟩ := touched_restore fs file
  exact hsecond.writable hp (hfirst.writable hp hw)

def undo (c : FsPath → Option (List UInt8)) (installed : List InstalledProcessFile) :
    FsPath → Option (List UInt8) :=
  installed.reverse.foldl (fun c f => update c f.path f.priorContent) c

variable {files : List InstalledProcessFile}

theorem foldl_restore (hw : ∀ f ∈ files, fs.Writable f.path) :
    (files.foldl restoreProcessFile fs).contentAt =
      files.foldl (fun c f => update c f.path f.priorContent) fs.contentAt := by
  induction files generalizing fs with
  | nil => rfl
  | cons f files ih =>
    obtain ⟨hf, hfiles⟩ := forall_mem_cons.mp hw
    rw [foldl_cons, foldl_cons, ih, contentAt_restore hf]
    exact fun g hg => writable_restore hf.ne_nil (hfiles g hg)

theorem contentAt_restoreProcessFiles {installed : List InstalledProcessFile}
    (hw : ∀ f ∈ installed, fs.Writable f.path) :
    (restoreProcessFiles fs installed).contentAt = undo fs.contentAt installed :=
  foldl_restore fun f hf => hw f (mem_reverse.mp hf)

theorem get_restore_beside (hbeside : ∀ f ∈ files, ¬ f.path <+: q ∧ ¬ q <+: f.path) :
    (files.foldl restoreProcessFile fs).get q = fs.get q := by
  induction files generalizing fs with
  | nil => rfl
  | cons f files ih =>
    obtain ⟨hf, hfiles⟩ := forall_mem_cons.mp hbeside
    obtain ⟨fs₁, hfirst, hsecond⟩ := touched_restore fs f
    rw [foldl_cons, ih hfiles, hsecond.get_beside hf.1 hf.2, hfirst.get_beside hf.1 hf.2]

theorem get_restoreProcessFiles {installed : List InstalledProcessFile}
    (hbeside : ∀ f ∈ installed, ¬ f.path <+: q ∧ ¬ q <+: f.path) :
    (restoreProcessFiles fs installed).get q = fs.get q :=
  get_restore_beside fun f hf => hbeside f (mem_reverse.mp hf)

end Restore

section Undo

variable {c c₀ c' : FsPath → Option (List UInt8)} {installed : List InstalledProcessFile}

theorem undo_append (c : FsPath → Option (List UInt8)) (installed : List InstalledProcessFile)
    (f : InstalledProcessFile) :
    undo c (installed ++ [f]) = undo (update c f.path f.priorContent) installed := by
  rw [undo, reverse_append]
  rfl

/-- The contents after the installation of the files, each with what stood at its path. -/
inductive Layers (c₀ : FsPath → Option (List UInt8)) :
    List InstalledProcessFile → (FsPath → Option (List UInt8)) → Prop where
  | nil : Layers c₀ [] c₀
  | snoc {installed : List InstalledProcessFile} {c : FsPath → Option (List UInt8)}
      (hl : Layers c₀ installed c) (p : FsPath) (content : List UInt8) :
      Layers c₀ (installed ++ [⟨p, c p⟩]) (update c p (some content))

theorem Layers.undo (hl : Layers c₀ installed c) : FsTree.undo c installed = c₀ := by
  induction hl with
  | nil => rfl
  | snoc hl p content ih => rw [undo_append, update_idem, update_eq_self, ih]

theorem Layers.isSome (hl : Layers c₀ installed c) :
    ∀ f ∈ installed, (c f.path).isSome := by
  induction hl with
  | nil => nofun
  | snoc hl p content ih =>
    intro f hf
    rw [update_apply]
    split
    · rfl
    · rcases mem_append.mp hf with hf | hf
      · exact ih f hf
      · rename_i hne
        cases mem_singleton.mp hf
        exact absurd rfl hne

theorem Layers.eq_of_not_mem (hl : Layers c₀ installed c) (hp : ∀ f ∈ installed, f.path ≠ p) :
    c p = c₀ p := by
  induction hl with
  | nil => rfl
  | snoc hl p' content ih =>
    have hne : p' ≠ p := hp ⟨p', _⟩ (mem_append_right _ mem_cons_self)
    rw [update_of_ne hne.symm]
    exact ih fun f hf => hp f (mem_append_left _ hf)

theorem undo_congr {Q : FsPath → Prop} (hc : ∀ q, Q q → c q = c' q) :
    ∀ q, Q q → undo c installed q = undo c' installed q := by
  induction installed using List.reverseRecOn generalizing c c' with
  | nil => exact hc
  | append_singleton installed f ih =>
    rw [undo_append, undo_append]
    apply ih
    intro q hq
    rw [update_apply, update_apply]
    split
    · rfl
    · exact hc q hq

theorem undo_update_of_mem {f : InstalledProcessFile} (hf : f ∈ installed)
    (x : Option (List UInt8)) :
    undo (update c f.path x) installed = undo c installed := by
  induction installed using List.reverseRecOn generalizing c with
  | nil => cases hf
  | append_singleton installed g ih =>
    rw [undo_append, undo_append]
    by_cases heq : f.path = g.path
    · rw [heq, update_idem]
    · have hmem : f ∈ installed := by
        rcases mem_append.mp hf with hf | hf
        · exact hf
        · exact absurd (congrArg InstalledProcessFile.path (mem_singleton.mp hf)) heq
      rw [update_comm heq]
      exact ih hmem

theorem undo_of_not_mem (hp : ∀ f ∈ installed, f.path ≠ p) : undo c installed p = c p := by
  induction installed using List.reverseRecOn generalizing c with
  | nil => rfl
  | append_singleton installed g ih =>
    rw [undo_append, ih fun f hf => hp f (mem_append_left _ hf)]
    exact update_of_ne (hp g (mem_append_right _ mem_cons_self)).symm _ _

end Undo

/-! ### Installing -/

structure Grown (fs fs' : FsTree) : Prop where
  contentAt : fs'.contentAt = fs.contentAt
  isSome : ∀ q, (fs.get q).isSome → (fs'.get q).isSome
  isDirectory : ∀ q, isDirectory (fs.get q) = true → isDirectory (fs'.get q) = true

theorem Grown.refl : Grown fs fs := ⟨rfl, fun _ => id, fun _ => id⟩

variable {fs'' : FsTree}

theorem Grown.trans (h₁ : Grown fs fs') (h₂ : Grown fs' fs'') : Grown fs fs'' :=
  ⟨h₂.contentAt.trans h₁.contentAt, fun q hq => h₂.isSome q (h₁.isSome q hq),
    fun q hq => h₂.isDirectory q (h₁.isDirectory q hq)⟩

theorem contentAt_put_empty (hnone : fs.get p = none) :
    (fs.put p (some (.directory []))).contentAt p = none := by
  have hp : p ≠ [] := by
    rintro rfl
    cases hnone
  rw [FileTree.contentAt]
  rcases FileTree.get_put_cases fs (some (.directory [])) hp with heq | heq <;>
    rw [heq]

theorem grown_mkdir (h : Host) (fs : FsTree) (p : FsPath) : Grown fs (mkdir h fs p) := by
  unfold mkdir
  split
  · exact .refl
  · rename_i hfree
    simp only [Bool.or_eq_true, not_or, Bool.not_eq_true, Option.isSome_eq_false_iff,
      Option.isNone_iff_eq_none] at hfree
    have hbare : Bare (fs.get p) := by
      rw [hfree.2]
      exact FileTree.bare_none
    refine ⟨funext fun q => ?_, fun q hq => ?_, fun q hq => ?_⟩
    · by_cases heq : q = p
      · rw [heq, contentAt_put_empty hfree.2, FileTree.contentAt, hfree.2]
      · exact FileTree.contentAt_put_of_ne hbare FileTree.bare_empty heq
    · exact FileTree.isSome_get_put hbare hq (.inr rfl)
    · apply FileTree.isDirectory_get_put hbare hq
      intro heq
      rw [heq, hfree.2] at hq
      cases hq

theorem grown_makeDirectories (h : Host) (base rest : FsPath) (fs : FsTree) :
    Grown fs (makeDirectories h fs base rest) := by
  induction rest generalizing fs base with
  | nil => exact .refl
  | cons segment rest ih => exact (grown_mkdir h fs _).trans (ih _ _)

/-! ### Beside and below -/

theorem beside_of_head (hp : p ≠ []) (hq : q ≠ []) (hhead : p.head? ≠ q.head?) :
    ¬ p <+: q ∧ ¬ q <+: p := by
  cases p with
  | nil => exact absurd rfl hp
  | cons k p =>
    cases q with
    | nil => exact absurd rfl hq
    | cons k' q =>
      have hne : k ≠ k' := fun heq => hhead (congrArg some heq)
      exact ⟨fun hpre => hne (cons_prefix_cons.mp hpre).1,
        fun hpre => hne (cons_prefix_cons.mp hpre).1.symm⟩

theorem get_mkdir_beside (hb : ¬ p <+: q ∧ ¬ q <+: p) : (mkdir h fs p).get q = fs.get q := by
  unfold mkdir
  split
  · rfl
  · exact FileTree.get_put_beside hb.1 hb.2

theorem get_makeDirectories_beside {base rest : FsPath} (hq : q ≠ [])
    (hhead : (base ++ rest).head? ≠ q.head?) :
    (makeDirectories h fs base rest).get q = fs.get q := by
  induction rest generalizing fs base with
  | nil => rfl
  | cons segment rest ih =>
    have hfirst : (base ++ [segment]).head? = (base ++ segment :: rest).head? := by
      cases base <;> rfl
    rw [makeDirectories, ih (by rwa [append_assoc]), get_mkdir_beside]
    apply beside_of_head (by simp) hq
    rwa [hfirst]

theorem mkdir_below (hnone : fs.get q = none) (k : String) (r : FsPath) :
    mkdir h fs (q ++ k :: r) = fs := by
  have hparent : fs.get (q ++ k :: r).dropLast = none := by
    rw [dropLast_append_of_ne_nil (cons_ne_nil k r), FileTree.get_append, hnone]
    rfl
  rw [mkdir, hparent]
  simp [isDirectory]

theorem writeFile_below (hnone : fs.get q = none) (k : String) (r : FsPath) :
    writeFile h fs (q ++ k :: r) content = (false, fs) := by
  have hparent : fs.get (q ++ k :: r).dropLast = none := by
    rw [dropLast_append_of_ne_nil (cons_ne_nil k r), FileTree.get_append, hnone]
    rfl
  rw [writeFile, hparent]
  simp [isDirectory]

theorem isSome_writeFile (hq : (fs.get q).isSome) : ((writeFile h fs p content).2.get q).isSome := by
  unfold writeFile
  split
  · exact hq
  · rename_i hfree
    simp only [Bool.or_eq_true, not_or, Bool.not_eq_true] at hfree
    split
    · exact FileTree.isSome_get_put (bare_of_not_directory hfree.2) hq (.inr rfl)
    · exact hq
    · exact FileTree.isSome_get_put (bare_of_not_directory hfree.2) hq (.inr rfl)

/-! ### Process files -/

/-- An installation at a path: new directories above it, and then operations on the file itself. -/
structure Changed (p : FsPath) (fs fs' : FsTree) : Prop where
  contentAt : ∀ q, q ≠ p → fs'.contentAt q = fs.contentAt q
  isSome : ∀ q, q ≠ p → (fs.get q).isSome → (fs'.get q).isSome
  apart : ∀ q, q ≠ [] → p.head? ≠ q.head? → fs'.get q = fs.get q
  writable : ∀ c, fs.contentAt p = some c → fs'.Writable p

theorem changed_parents (h : Host) (fs : FsTree) (base : FsPath) {rest : FsPath} (hrest : rest ≠ []) :
    Changed (base ++ rest) fs (makeDirectories h fs base rest.dropLast) := by
  have hgrown := grown_makeDirectories h base rest.dropLast fs
  have hne : base ++ rest ≠ [] := append_ne_nil_of_right_ne_nil _ hrest
  refine ⟨fun q _ => by rw [hgrown.contentAt], fun q _ => hgrown.isSome q, fun q hq hhead => ?_,
    fun c hc => writable_of_contentAt hne (by rw [hgrown.contentAt]; exact hc)⟩
  cases hparents : rest.dropLast with
  | nil => rfl
  | cons k r =>
    apply get_makeDirectories_beside hq
    intro heq
    apply hhead
    rw [← heq, ← hparents]
    cases base with
    | nil =>
      rw [nil_append, nil_append]
      cases rest with
      | nil => exact absurd rfl hrest
      | cons k' rest =>
        cases rest with
        | nil => cases hparents
        | cons _ _ => rfl
    | cons k' base => rfl

theorem Changed.touched (hc : Changed p fs fs') (hp : p ≠ [])
    (ht : Touched p fs' fs'') : Changed p fs fs'' := by
  refine ⟨fun q hq => (ht.contentAt hq).trans (hc.contentAt q hq),
    fun q hq hsome => ht.isSome (hc.isSome q hq hsome) hq, fun q hq hhead => ?_,
    fun c hcontent => ht.writable hp (hc.writable c hcontent)⟩
  have hbeside := beside_of_head hp hq hhead
  exact (ht.get_beside hbeside.1 hbeside.2).trans (hc.apart q hq hhead)

theorem processSegments_valid {path : FsPath} (hvalid : processFilePathValid path = true) :
    processSegments path = path.tail ∧ processSegments path ≠ [] ∧
      (processSegments path).head? ≠ some "tracejvm" := by
  simp only [processFilePathValid, Bool.and_eq_true, Bool.not_eq_true', Bool.or_eq_false_iff,
    Bool.not_eq_false', decide_eq_true_eq, decide_eq_false_iff_not, any_eq_false] at hvalid
  obtain ⟨⟨⟨⟨-, hhead, hlength⟩, -⟩, hsegments⟩, hscratch, -⟩ := hvalid
  cases path with
  | nil => cases hhead
  | cons first rest =>
    obtain rfl : first = "" := Option.some.inj hhead
    have hrest : processSegments ("" :: rest) = rest := by
      rw [processSegments, filter_cons_of_neg (by simp), filter_eq_self]
      intro segment hsegment
      have hbad := hsegments segment hsegment
      simp only [badSegment, Bool.or_eq_true, decide_eq_true_eq, not_or] at hbad
      exact decide_eq_true hbad.1.1
    rw [hrest]
    refine ⟨rfl, ?_, hscratch⟩
    rintro rfl
    simp at hlength

inductive Installs (h : Host) (fs : FsTree) (file : BinaryFile) :
    Except InstallFault InstalledProcessFile × FsTree → Prop where
  | invalid (hinvalid : processFilePathValid file.path = false) :
      Installs h fs file (.error (.invalidProcessPath file.path), fs)
  | failed {fs' : FsTree} (hvalid : processFilePathValid file.path = true)
      (hchanged : Changed (processSegments file.path) fs fs') :
      Installs h fs file (.error .filesystem, fs')
  | done {fs' : FsTree} (hvalid : processFilePathValid file.path = true)
      (hchanged : Changed (processSegments file.path) fs fs')
      (hcontent : fs'.contentAt (processSegments file.path) = some file.content) :
      Installs h fs file
        (.ok ⟨processSegments file.path, fs.contentAt (processSegments file.path)⟩, fs')

theorem installs_process (h : Host) (fs : FsTree) (file : BinaryFile) :
    Installs h fs file (installProcessFile h fs file) := by
  unfold installProcessFile
  split
  · rename_i hinvalid
    exact .invalid (by simpa using hinvalid)
  · rename_i hvalid
    have hvalid : processFilePathValid file.path = true := by simpa using hvalid
    generalize hpath : processSegments file.path = path
    have hne : path ≠ [] := hpath ▸ (processSegments_valid hvalid).2.1
    have hgrown := (grown_makeDirectories h [] path.dropLast fs).contentAt
    have hparents : Changed path fs (makeDirectories h fs [] path.dropLast) :=
      changed_parents h fs [] hne
    dsimp only
    generalize makeDirectories h fs [] path.dropLast = made at hgrown hparents
    split
    · exact .failed hvalid (hpath ▸ hparents)
    · split
      · exact .failed hvalid (hpath ▸ hparents)
      · rename_i prior hget
        have hprior : fs.contentAt path = some prior := by
          rw [← hgrown, FileTree.contentAt, hget]
        have hunlinked := hparents.touched hne (touched_unlink h made path)
        split
        · exact .failed hvalid (hpath ▸ hunlinked)
        · have hchanged := hunlinked.touched hne
            (touched_writeFile h (unlink h made path).2 path file.content)
          cases hdone : (writeFile h (unlink h made path).2 path file.content).1 with
          | true =>
            rw [if_pos rfl, ← hprior, ← hpath]
            rw [← hpath] at hchanged hdone hne
            exact .done hvalid hchanged (writeFile_done hdone hne)
          | false => exact .failed hvalid (hpath ▸ hchanged)
      · rename_i hget
        have hprior : fs.contentAt path = none := by
          rw [← hgrown, FileTree.contentAt, hget]
        have hchanged := hparents.touched hne (touched_writeFile h made path file.content)
        cases hdone : (writeFile h made path file.content).1 with
        | true =>
          rw [if_pos rfl, ← hprior, ← hpath]
          rw [← hpath] at hchanged hdone hne
          exact .done hvalid hchanged (writeFile_done hdone hne)
        | false => exact .failed hvalid (hpath ▸ hchanged)

/-! ### Scratch files -/

theorem beside_append (hb : ¬ p <+: q ∧ ¬ q <+: p) (r : FsPath) :
    ¬ p ++ r <+: q ∧ ¬ q <+: p ++ r := by
  refine ⟨fun hpre => hb.1 ((prefix_append p r).trans hpre), fun hpre => ?_⟩
  rcases prefix_or_prefix_of_prefix hpre (prefix_append p r) with hq | hp
  · exact hb.2 hq
  · exact hb.1 hp

/-- Nothing but new files and directories below `root`. -/
structure Below (root : FsPath) (fs fs' : FsTree) : Prop where
  beside : ∀ q, ¬ root <+: q ∧ ¬ q <+: root → fs'.get q = fs.get q
  isSome : ∀ q, (fs.get q).isSome → (fs'.get q).isSome
  absent : fs.get root = none → fs'.get root = none

theorem Below.refl {root : FsPath} : Below root fs fs := ⟨fun _ _ => rfl, fun _ => id, id⟩

theorem Below.trans {root : FsPath} (h₁ : Below root fs fs')
    (h₂ : Below root fs' fs'') : Below root fs fs'' :=
  ⟨fun q hb => (h₂.beside q hb).trans (h₁.beside q hb), fun q hq => h₂.isSome q (h₁.isSome q hq),
    fun hnone => h₂.absent (h₁.absent hnone)⟩

theorem below_writeFile (h : Host) (fs : FsTree) (root : FsPath) (k : String) (rest : FsPath)
    (content : List UInt8) : Below root fs (writeFile h fs (root ++ k :: rest) content).2 := by
  refine ⟨fun q hb => ?_, fun q => isSome_writeFile, fun hnone => ?_⟩
  · have hbeside := beside_append hb (k :: rest)
    exact (touched_writeFile ..).get_beside hbeside.1 hbeside.2
  · rw [writeFile_below hnone]
    exact hnone

theorem below_mkdir (h : Host) (fs : FsTree) (root : FsPath) (k : String) (rest : FsPath) :
    Below root fs (mkdir h fs (root ++ k :: rest)) := by
  refine ⟨fun q hb => get_mkdir_beside (beside_append hb _), (grown_mkdir h fs _).isSome,
    fun hnone => ?_⟩
  rw [mkdir_below hnone]
  exact hnone

theorem below_makeDirectories (h : Host) (root base rest : FsPath) (fs : FsTree) :
    Below root fs (makeDirectories h fs (root ++ base) rest) := by
  induction rest generalizing fs base with
  | nil => exact .refl
  | cons segment rest ih =>
    obtain ⟨k, r, hr⟩ : ∃ k r, base ++ [segment] = k :: r :=
      exists_cons_of_ne_nil (by simp)
    rw [makeDirectories, append_assoc]
    exact (hr ▸ below_mkdir h fs root k r).trans (ih _ _)

theorem below_writeBinaryFileTree (h : Host) (fs : FsTree) (root : FsPath) {file : BinaryFile}
    (hpath : file.path ≠ []) : Below root fs (writeBinaryFileTree h fs root file).2 := by
  obtain ⟨k, r, hr⟩ := exists_cons_of_ne_nil hpath
  have hdirectories := below_makeDirectories h root [] file.path.dropLast fs
  rw [append_nil] at hdirectories
  unfold writeBinaryFileTree
  rw [hr] at hdirectories ⊢
  exact hdirectories.trans (below_writeFile ..)

theorem relativePath_ne_nil {path : FsPath} (hvalid : relativePathValid path = true) :
    path ≠ [] := by
  rintro rfl
  cases hvalid

/-! ### Removing -/

mutual

theorem leftover_eq_none : ∀ t : FsTree, leftover t = none
  | .file _ => rfl
  | .directory entries => by rw [leftover, leftovers_eq_nil entries]

theorem leftovers_eq_nil : ∀ entries : List (String × FsTree), leftovers entries = []
  | [] => rfl
  | (name, child) :: entries => by rw [leftovers, leftover_eq_none child, leftovers_eq_nil entries]

end

theorem removeTreeNoFollow_eq (fs : FsTree) (p : FsPath) :
    removeTreeNoFollow fs p = fs ∧ fs.get p = none ∨ removeTreeNoFollow fs p = fs.put p none := by
  unfold removeTreeNoFollow
  split
  · rename_i hnone
    exact .inl ⟨rfl, hnone⟩
  · rw [leftover_eq_none]
    exact .inr rfl

theorem get_removeTreeNoFollow (hp : p ≠ []) : (removeTreeNoFollow fs p).get p = none := by
  rcases removeTreeNoFollow_eq fs p with ⟨heq, hnone⟩ | heq
  · rwa [heq]
  · rw [heq]
    rcases FileTree.get_put_cases fs none hp with hget | hget <;> exact hget

theorem get_removeTreeNoFollow_beside (hb : ¬ p <+: q ∧ ¬ q <+: p) :
    (removeTreeNoFollow fs p).get q = fs.get q := by
  rcases removeTreeNoFollow_eq fs p with ⟨heq, -⟩ | heq
  · rw [heq]
  · rw [heq, FileTree.get_put_beside hb.1 hb.2]

theorem contentAt_removeTreeNoFollow (hb : ¬ p <+: q ∧ ¬ q <+: p) :
    (removeTreeNoFollow fs p).contentAt q = fs.contentAt q := by
  rw [FileTree.contentAt, FileTree.contentAt, get_removeTreeNoFollow_beside hb]

end FsTree

/-! ### Runs -/

section Runs

variable {r : FilesRun} {before : FsTree} {s s' : FilesVm} {h : Host} {q : FsPath}

namespace FilesRun

theorem processPaths_spec (hq : q ∈ r.processPaths) : q ≠ [] ∧ q.head? ≠ some "tracejvm" := by
  obtain ⟨f, hf, rfl⟩ := mem_map.mp hq
  exact (FsTree.processSegments_valid (mem_filter.mp hf).2).2

theorem mem_processPaths {f : BinaryFile} (hf : f ∈ r.request.processFiles)
    (hvalid : processFilePathValid f.path = true) : processSegments f.path ∈ r.processPaths :=
  mem_map.mpr ⟨f, mem_filter.mpr ⟨hf, hvalid⟩, rfl⟩

def roots (r : FilesRun) : List FsPath := [r.outputRoot, r.classpathRoot]

theorem roots_spec {root : FsPath} (hroot : root ∈ r.roots) (path : FsPath) :
    root ≠ [] ∧ (root ++ path).head? = some "tracejvm" := by
  simp only [roots, mem_cons, not_mem_nil, or_false] at hroot
  rcases hroot with rfl | rfl <;> exact ⟨by simp [outputRoot, classpathRoot, scratchRoot], rfl⟩

theorem outputRoot_ne_classpathRoot (r : FilesRun) : r.outputRoot ≠ r.classpathRoot := by
  intro heq
  have hname := append_cancel_left heq
  have hchars := congrArg (fun name => name.toList[9]?) (cons.inj hname).1
  simp only [String.toList_append] at hchars
  cases hchars

theorem roots_beside (r : FilesRun) :
    ¬ r.outputRoot <+: r.classpathRoot ∧ ¬ r.classpathRoot <+: r.outputRoot := by
  have hlength : r.outputRoot.length = r.classpathRoot.length := rfl
  exact ⟨fun hp => r.outputRoot_ne_classpathRoot (hp.eq_of_length hlength),
    fun hp => r.outputRoot_ne_classpathRoot (hp.eq_of_length hlength.symm).symm⟩

theorem process_beside_roots {root : FsPath} (hroot : root ∈ r.roots) (hq : q ∈ r.processPaths) :
    ¬ q <+: root ∧ ¬ root <+: q := by
  have hhead := (roots_spec hroot []).2
  rw [append_nil] at hhead
  apply FsTree.beside_of_head (processPaths_spec hq).1 (roots_spec hroot []).1
  rw [hhead]
  exact (processPaths_spec hq).2

end FilesRun

/-- The file system is as it was before the run, as far as the run is concerned. -/
structure Restored (r : FilesRun) (before after : FsTree) : Prop where
  scratch : ∀ root ∈ r.roots, before.get root = none → after.get root = none
  contents : ∀ p ∈ r.processPaths, after.contentAt p = before.contentAt p

def Scratched (r : FilesRun) (before fs : FsTree) : Prop :=
  ∃ root ∈ r.roots, before.get root = none ∧ (fs.get root).isSome

namespace FilesVm

def start (before : FsTree) : FilesVm := ⟨before, .outputRoot, []⟩

/-- The step leaves the process file it installs as it was, or an earlier installation of the same
path is undone. -/
def Unharmed (s : FilesVm) (h : Host) : Prop :=
  match s.pc with
  | .process (file :: _) =>
    processFilePathValid file.path = true →
      (∃ f ∈ s.installed, f.path = processSegments file.path) ∨
        (FsTree.installProcessFile h s.fs file).2.contentAt (processSegments file.path) =
          s.fs.contentAt (processSegments file.path)
  | _ => True

/-- The installation does not fail once a scratch directory has been created, nor in the writing of
a process file. -/
def Passes (r : FilesRun) (before : FsTree) (s : FilesVm) : FilesEvent → Prop
  | .install h => ∀ s' fault, filesStep r s (.install h) = some s' → s'.pc = .ended (some fault) →
      ¬ Scratched r before s.fs ∧ s.Unharmed h
  | _ => True

def early : FilesPc → Bool
  | .process _ | .java | .ended _ => false
  | _ => true

structure Installing (r : FilesRun) (before : FsTree) (s : FilesVm) : Prop where
  layers : ∃ c, FsTree.Layers before.contentAt s.installed c ∧
    ∀ q ∈ r.processPaths, s.fs.contentAt q = c q
  paths : ∀ f ∈ s.installed, f.path ∈ r.processPaths
  early : early s.pc = true → s.installed = []
  remaining : ∀ files, s.pc = .process files → ∀ f ∈ files, f ∈ r.request.processFiles

theorem Below.contentAt {root : FsPath} {fs fs' : FsTree} (hb : FsTree.Below root fs fs')
    (hroot : root ∈ r.roots) (hq : q ∈ r.processPaths) : fs'.contentAt q = fs.contentAt q := by
  have hbeside := FilesRun.process_beside_roots hroot hq
  rw [FileTree.contentAt, FileTree.contentAt, hb.beside q hbeside.symm]

theorem Below.absent_root {root root' : FsPath} {fs fs' : FsTree}
    (hb : FsTree.Below root fs fs') (hroot : root ∈ r.roots) (hroot' : root' ∈ r.roots)
    (hnone : fs.get root' = none) : fs'.get root' = none := by
  by_cases heq : root' = root
  · subst heq
    exact hb.absent hnone
  · rw [hb.beside root' ?_]
    · exact hnone
    · have hbeside := r.roots_beside
      simp only [FilesRun.roots, mem_cons, not_mem_nil, or_false] at hroot hroot'
      rcases hroot with rfl | rfl <;> rcases hroot' with rfl | rfl
      · exact absurd rfl heq
      · exact hbeside
      · exact hbeside.symm
      · exact absurd rfl heq

theorem installing_start (r : FilesRun) (before : FsTree) : Installing r before (start before) :=
  ⟨⟨_, .nil, fun _ _ => rfl⟩, nofun, fun _ => rfl, nofun⟩

namespace Installing

variable {fs : FsTree}

theorem keep (hi : Installing r before s) {pc : FilesPc}
    (hcontents : ∀ q ∈ r.processPaths, fs.contentAt q = s.fs.contentAt q)
    (hearly : FilesVm.early pc = true → s.installed = [])
    (hremaining : ∀ files, pc = .process files → ∀ f ∈ files, f ∈ r.request.processFiles) :
    Installing r before { s with fs := fs, pc := pc } := by
  obtain ⟨c, hlayers, hc⟩ := hi.layers
  exact ⟨⟨c, hlayers, fun q hq => (hcontents q hq).trans (hc q hq)⟩, hi.paths, hearly, hremaining⟩

theorem contents_early (hi : Installing r before s) (hearly : FilesVm.early s.pc = true) :
    ∀ q ∈ r.processPaths, s.fs.contentAt q = before.contentAt q := by
  obtain ⟨c, hlayers, hc⟩ := hi.layers
  rw [hi.early hearly] at hlayers
  have hbefore : c = before.contentAt := hlayers.undo
  rwa [hbefore] at hc

theorem restored_iff_early (hi : Installing r before s) (hearly : FilesVm.early s.pc = true)
    {root : FsPath} (hroot : root ∈ r.roots) (hbelow : FsTree.Below root s.fs fs) :
    Restored r before fs ↔ ¬ Scratched r before s.fs := by
  constructor
  · rintro hrestored ⟨root', hroot', hbefore, hsome⟩
    have hafter := hbelow.isSome root' hsome
    rw [hrestored.scratch root' hroot' hbefore] at hafter
    cases hafter
  · intro hscratched
    refine ⟨fun root' hroot' hbefore => ?_, fun q hq => ?_⟩
    · apply Below.absent_root hbelow hroot hroot'
      cases hget : s.fs.get root' with
      | none => rfl
      | some n => exact absurd ⟨root', hroot', hbefore, by rw [hget]; rfl⟩ hscratched
    · rw [Below.contentAt hbelow hroot hq, hi.contents_early hearly q hq]

theorem contents_restore (hi : Installing r before s) (hw : ∀ f ∈ s.installed, fs.Writable f.path)
    (hcontents : ∀ q ∈ r.processPaths, fs.contentAt q = s.fs.contentAt q) :
    ∀ q ∈ r.processPaths, (FsTree.restoreProcessFiles fs s.installed).contentAt q =
      before.contentAt q := by
  obtain ⟨c, hlayers, hc⟩ := hi.layers
  intro q hq
  rw [FsTree.contentAt_restoreProcessFiles hw, ← hlayers.undo]
  exact FsTree.undo_congr (fun q hq => (hcontents q hq).trans (hc q hq)) q hq

theorem present (hi : Installing r before s) {f : InstalledProcessFile} (hf : f ∈ s.installed) :
    ∃ content, s.fs.contentAt f.path = some content := by
  obtain ⟨c, hlayers, hc⟩ := hi.layers
  rw [hc f.path (hi.paths f hf)]
  exact Option.isSome_iff_exists.mp (hlayers.isSome f hf)

theorem get_root_restore (hi : Installing r before s) {root : FsPath} (hroot : root ∈ r.roots) :
    (FsTree.restoreProcessFiles fs s.installed).get root = fs.get root :=
  FsTree.get_restoreProcessFiles fun f hf => FilesRun.process_beside_roots hroot (hi.paths f hf)

/-- The cleanup after the program restores everything. -/
theorem restored_cleanup (hi : Installing r before s) : Restored r before (s.cleanup r) := by
  have houtput : r.outputRoot ∈ r.roots := mem_cons_self
  have hclasspath : r.classpathRoot ∈ r.roots := mem_cons_of_mem _ mem_cons_self
  have hcontents : ∀ q ∈ r.processPaths, (FsTree.removeTreeNoFollow
      (FsTree.removeTreeNoFollow s.fs r.outputRoot) r.classpathRoot).contentAt q =
        s.fs.contentAt q := by
    intro q hq
    rw [FsTree.contentAt_removeTreeNoFollow (FilesRun.process_beside_roots hclasspath hq).symm,
      FsTree.contentAt_removeTreeNoFollow (FilesRun.process_beside_roots houtput hq).symm]
  refine ⟨fun root hroot _ => ?_, hi.contents_restore (fun f hf => ?_) hcontents⟩
  · rw [cleanup, hi.get_root_restore hroot]
    simp only [FilesRun.roots, mem_cons, not_mem_nil, or_false] at hroot
    rcases hroot with rfl | rfl
    · rw [FsTree.get_removeTreeNoFollow_beside r.roots_beside.symm]
      exact FsTree.get_removeTreeNoFollow (FilesRun.roots_spec houtput []).1
    · exact FsTree.get_removeTreeNoFollow (FilesRun.roots_spec hclasspath []).1
  · obtain ⟨content, hcontent⟩ := hi.present hf
    rw [← hcontents f.path (hi.paths f hf)] at hcontent
    exact FsTree.writable_of_contentAt (FilesRun.processPaths_spec (hi.paths f hf)).1 hcontent

theorem scratch_iff (hi : Installing r before s)
    (happart : ∀ root ∈ r.roots, fs.get root = s.fs.get root) :
    (∀ root ∈ r.roots, before.get root = none →
      (FsTree.restoreProcessFiles fs s.installed).get root = none) ↔
        ¬ Scratched r before s.fs := by
  constructor
  · rintro hgone ⟨root, hroot, hbefore, hsome⟩
    have hnone := hgone root hroot hbefore
    rw [hi.get_root_restore hroot, happart root hroot] at hnone
    rw [hnone] at hsome
    cases hsome
  · intro hscratched root hroot hbefore
    rw [hi.get_root_restore hroot, happart root hroot]
    cases hget : s.fs.get root with
    | none => rfl
    | some n => exact absurd ⟨root, hroot, hbefore, by rw [hget]; rfl⟩ hscratched

/-- The contents after a failure in the installation of a process file. -/
theorem contents_iff (hi : Installing r before s) {p : FsPath} (hp : p ∈ r.processPaths)
    (hchanged : FsTree.Changed p s.fs fs) :
    (∀ q ∈ r.processPaths, (FsTree.restoreProcessFiles fs s.installed).contentAt q =
      before.contentAt q) ↔
        (∃ f ∈ s.installed, f.path = p) ∨ fs.contentAt p = s.fs.contentAt p := by
  have hw : ∀ f ∈ s.installed, fs.Writable f.path := by
    intro f hf
    obtain ⟨content, hcontent⟩ := hi.present hf
    by_cases heq : f.path = p
    · rw [heq] at hcontent ⊢
      exact hchanged.writable content hcontent
    · rw [← hchanged.contentAt f.path heq] at hcontent
      exact FsTree.writable_of_contentAt (FilesRun.processPaths_spec (hi.paths f hf)).1 hcontent
  obtain ⟨c, hlayers, hc⟩ := hi.layers
  constructor
  · intro hall
    by_cases hmem : ∃ f ∈ s.installed, f.path = p
    · exact .inl hmem
    · right
      have hnot : ∀ f ∈ s.installed, f.path ≠ p := fun f hf heq => hmem ⟨f, hf, heq⟩
      have hrestored := hall p hp
      rw [FsTree.contentAt_restoreProcessFiles hw, FsTree.undo_of_not_mem hnot] at hrestored
      rw [hrestored, hc p hp, hlayers.eq_of_not_mem hnot]
  · rintro (⟨f, hf, rfl⟩ | hsame) q hq
    · have hagree : ∀ q ∈ r.processPaths, fs.contentAt q =
          update c f.path (fs.contentAt f.path) q := by
        intro q hq
        by_cases heq : q = f.path
        · rw [heq, update_self]
        · rw [update_of_ne heq, hchanged.contentAt q heq, hc q hq]
      rw [FsTree.contentAt_restoreProcessFiles hw, FsTree.undo_congr hagree q hq,
        FsTree.undo_update_of_mem hf, hlayers.undo]
    · apply hi.contents_restore hw _ q hq
      intro q hq
      by_cases heq : q = p
      · rw [heq]
        exact hsame
      · exact hchanged.contentAt q heq

end Installing

def Continues (r : FilesRun) (before : FsTree) (s : FilesVm) (h : Host) (s' : FilesVm) : Prop :=
  (Installing r before s' ∧ ∀ fault, s'.pc ≠ .ended fault) ∨
    ∃ fault, s'.pc = .ended (some fault) ∧
      (Restored r before s'.fs ↔ ¬ Scratched r before s.fs ∧ s.Unharmed h)

namespace Installing

theorem unharmed_early (hearly : FilesVm.early s.pc = true) : s.Unharmed h := by
  unfold Unharmed
  split
  · rename_i hpc
    rw [hpc] at hearly
    cases hearly
  · trivial

variable {root : FsPath}

theorem fail_early (hi : Installing r before s) (hearly : FilesVm.early s.pc = true)
    {fs : FsTree} (hroot : root ∈ r.roots) (hbelow : FsTree.Below root s.fs fs)
    (fault : InstallFault) : Continues r before s h (s.fail fs fault) := by
  refine .inr ⟨fault, rfl, ?_⟩
  rw [and_iff_left (unharmed_early hearly)]
  exact hi.restored_iff_early hearly hroot hbelow

theorem next_early (hi : Installing r before s) (hearly : FilesVm.early s.pc = true)
    {fs : FsTree} {pc : FilesPc} (hroot : root ∈ r.roots)
    (hbelow : FsTree.Below root s.fs fs) (hnext : FilesVm.early pc = true) :
    Continues r before s h { s with fs := fs, pc := pc } := by
  refine .inl ⟨hi.keep (fun q hq => Below.contentAt hbelow hroot hq) (fun _ => hi.early hearly) ?_,
    ?_⟩
  · rintro files rfl
    cases hnext
  · rintro fault rfl
    cases hnext

theorem installProgram (hi : Installing r before s) (hearly : FilesVm.early s.pc = true)
    (file : BinaryFile) (rest : List BinaryFile) :
    Continues r before s h (s.installProgram r h file rest) := by
  have hroot : r.outputRoot ∈ r.roots := mem_cons_self
  unfold FilesVm.installProgram
  split
  · exact hi.fail_early hearly hroot .refl _
  · rename_i hvalid
    have hpath := FsTree.relativePath_ne_nil (by simpa using hvalid)
    have hbelow := FsTree.below_writeBinaryFileTree h s.fs r.outputRoot hpath
    dsimp only
    split
    · exact hi.next_early hearly hroot hbelow rfl
    · exact hi.fail_early hearly hroot hbelow _

theorem installApi (hi : Installing r before s) (hearly : FilesVm.early s.pc = true)
    (name : String) (rest : List String) :
    Continues r before s h (s.installApi r h name rest) := by
  have hroot : r.classpathRoot ∈ r.roots := mem_cons_of_mem _ mem_cons_self
  unfold FilesVm.installApi
  split
  · exact hi.fail_early hearly hroot .refl _
  · rename_i content hcontent
    split
    · exact hi.fail_early hearly hroot .refl _
    · have hbelow := FsTree.below_writeFile h s.fs r.classpathRoot "io"
        (["tracecode", "tracekernel"] ++ [name]) content
      dsimp only
      rw [append_assoc]
      split
      · exact hi.next_early hearly hroot hbelow rfl
      · exact hi.fail_early hearly hroot hbelow _

theorem installClasspath (hi : Installing r before s) (hearly : FilesVm.early s.pc = true)
    (file : BinaryFile) (rest : List BinaryFile) :
    Continues r before s h (s.installClasspath r h file rest) := by
  have hroot : r.classpathRoot ∈ r.roots := mem_cons_of_mem _ mem_cons_self
  unfold FilesVm.installClasspath
  split
  · exact hi.fail_early hearly hroot .refl _
  · rename_i hvalid
    have hpath := FsTree.relativePath_ne_nil (by simpa using hvalid)
    have hbelow := FsTree.below_writeBinaryFileTree h s.fs r.classpathRoot hpath
    split
    · exact hi.fail_early hearly hroot .refl _
    · dsimp only
      split
      · exact hi.fail_early hearly hroot hbelow _
      · split
        · exact hi.next_early hearly hroot hbelow rfl
        · exact hi.fail_early hearly hroot hbelow _

theorem makeRoot (hi : Installing r before s) (hearly : FilesVm.early s.pc = true)
    {fs : FsTree} {pc : FilesPc} (hroot : root ∈ r.roots)
    (hbelow : FsTree.Below root (FsTree.mkdir h s.fs root) fs) (hnext : FilesVm.early pc = true) :
    Continues r before s h { s with fs := fs, pc := pc } := by
  refine .inl ⟨hi.keep (fun q hq => ?_) (fun _ => hi.early hearly) ?_, ?_⟩
  · rw [Below.contentAt hbelow hroot hq, (FsTree.grown_mkdir h s.fs root).contentAt]
  · rintro files rfl
    cases hnext
  · rintro fault rfl
    cases hnext

theorem installProcess (hi : Installing r before s) {file : BinaryFile} {rest : List BinaryFile}
    (hpc : s.pc = .process (file :: rest)) :
    Continues r before s h (s.installProcess h file rest) := by
  have hremaining := hi.remaining _ hpc
  have hfile := hremaining file mem_cons_self
  have hinstalls := FsTree.installs_process h s.fs file
  have hunharmed : s.Unharmed h ↔ (processFilePathValid file.path = true →
      (∃ f ∈ s.installed, f.path = processSegments file.path) ∨
        (FsTree.installProcessFile h s.fs file).2.contentAt (processSegments file.path) =
          s.fs.contentAt (processSegments file.path)) := by
    rw [Unharmed, hpc]
  unfold FilesVm.installProcess
  generalize FsTree.installProcessFile h s.fs file = result at hinstalls hunharmed
  cases hinstalls with
  | invalid hinvalid =>
    refine .inr ⟨_, rfl, ?_⟩
    have hharmless : s.Unharmed h := hunharmed.mpr fun hvalid => by
      rw [hinvalid] at hvalid
      cases hvalid
    have hcontents := hi.contents_restore (fun f hf => ?_) fun q _ => rfl
    · rw [and_iff_left hharmless, ← hi.scratch_iff fun _ _ => rfl]
      exact ⟨Restored.scratch, fun hscratch => ⟨hscratch, hcontents⟩⟩
    · obtain ⟨content, hcontent⟩ := hi.present hf
      exact FsTree.writable_of_contentAt (FilesRun.processPaths_spec (hi.paths f hf)).1 hcontent
  | @failed fs hvalid hchanged =>
    refine .inr ⟨_, rfl, ?_⟩
    have hp := FilesRun.mem_processPaths hfile hvalid
    have hiff := hi.contents_iff hp hchanged
    have happart : ∀ root ∈ r.roots, fs.get root = s.fs.get root := by
      intro root hroot
      have hspec := FilesRun.roots_spec hroot []
      apply hchanged.apart root hspec.1
      rw [append_nil] at hspec
      rw [hspec.2]
      exact (FilesRun.processPaths_spec hp).2
    rw [← hi.scratch_iff happart, hunharmed]
    exact ⟨fun hr => ⟨hr.scratch, fun _ => hiff.mp hr.contents⟩,
      fun ⟨hscratch, hharmless⟩ => ⟨hscratch, hiff.mpr (hharmless hvalid)⟩⟩
  | done hvalid hchanged hcontent =>
    have hp := FilesRun.mem_processPaths hfile hvalid
    obtain ⟨c, hlayers, hc⟩ := hi.layers
    refine .inl ⟨⟨?_, ?_, nofun, ?_⟩, nofun⟩
    · rw [hc _ hp]
      refine ⟨_, hlayers.snoc (processSegments file.path) file.content, fun q hq => ?_⟩
      by_cases heq : q = processSegments file.path
      · rw [heq, update_self]
        exact hcontent
      · rw [update_of_ne heq, ← hc q hq]
        exact hchanged.contentAt q heq
    · intro f hf
      rcases mem_append.mp hf with hf | hf
      · exact hi.paths f hf
      · rw [mem_singleton.mp hf]
        exact hp
    · rintro files ⟨⟩ f hf
      exact hremaining f (mem_cons_of_mem _ hf)

theorem install_step (hi : Installing r before s) (hstep : filesStep r s (.install h) = some s') :
    Continues r before s h s' := by
  rw [filesStep] at hstep
  have houtput : r.outputRoot ∈ r.roots := mem_cons_self
  have hclasspath : r.classpathRoot ∈ r.roots := mem_cons_of_mem _ mem_cons_self
  split at hstep
  · rename_i hpc
    cases hstep
    exact hi.makeRoot (by rw [hpc]; rfl) houtput .refl rfl
  · rename_i hpc
    cases hstep
    exact hi.next_early (by rw [hpc]; rfl) houtput .refl rfl
  · rename_i file rest hpc
    cases hstep
    exact hi.installProgram (by rw [hpc]; rfl) file rest
  · rename_i hpc
    cases hstep
    have hbelow := FsTree.below_makeDirectories h r.classpathRoot [] apiSegments
      (FsTree.mkdir h s.fs r.classpathRoot)
    rw [append_nil] at hbelow
    exact hi.makeRoot (by rw [hpc]; rfl) hclasspath hbelow rfl
  · rename_i hpc
    cases hstep
    exact hi.next_early (by rw [hpc]; rfl) hclasspath .refl rfl
  · rename_i name rest hpc
    cases hstep
    exact hi.installApi (by rw [hpc]; rfl) name rest
  · rename_i hpc
    cases hstep
    refine .inl ⟨hi.keep (fun _ _ => rfl) nofun ?_, nofun⟩
    rintro files ⟨⟩ f hf
    exact hf
  · rename_i file rest hpc
    cases hstep
    exact hi.installClasspath (by rw [hpc]; rfl) file rest
  · cases hstep
    exact .inl ⟨hi.keep (fun _ _ => rfl) nofun nofun, nofun⟩
  · rename_i file rest hpc
    cases hstep
    exact hi.installProcess hpc
  · cases hstep
  · cases hstep

end Installing

def Inv (r : FilesRun) (before : FsTree) (s : FilesVm) : Prop :=
  match s.pc with
  | .ended _ => Restored r before s.fs
  | _ => Installing r before s

theorem inv_of_installing (hi : Installing r before s) (hpc : ∀ fault, s.pc ≠ .ended fault) :
    Inv r before s := by
  unfold Inv
  split
  · rename_i fault heq
    exact absurd heq (hpc fault)
  · exact hi

variable {e : FilesEvent}

theorem installing_of_step (hi : Inv r before s)
    (hstep : filesStep r s e = some s') : Installing r before s := by
  unfold Inv at hi
  split at hi
  · rename_i fault hpc
    cases e <;> (rw [filesStep, hpc] at hstep; cases hstep)
  · exact hi

theorem Installing.program_step {fs : FsTree} (hi : Installing r before s)
    (hstep : filesStep r s (.program fs) = some s') :
    Installing r before s' ∧ ∀ fault, s'.pc ≠ .ended fault := by
  rw [filesStep] at hstep
  split at hstep
  · rename_i hpc
    obtain ⟨hcontents, hstep⟩ := Option.ite_none_right_eq_some.mp hstep
    cases hstep
    refine ⟨hi.keep hcontents hi.early hi.remaining, fun fault => ?_⟩
    rw [hpc]
    nofun
  · cases hstep

theorem Installing.finish_step (hi : Installing r before s)
    (hstep : filesStep r s .finish = some s') :
    s'.pc = .ended none ∧ Restored r before s'.fs := by
  rw [filesStep] at hstep
  split at hstep
  · cases hstep
    exact ⟨rfl, hi.restored_cleanup⟩
  · cases hstep

theorem inv_step (hi : Inv r before s) (hpasses : s.Passes r before e)
    (hstep : filesStep r s e = some s') : Inv r before s' := by
  have hinstalling := installing_of_step hi hstep
  cases e with
  | install h =>
    rcases hinstalling.install_step hstep with ⟨hnext, hpc⟩ | ⟨fault, hpc, hiff⟩
    · exact inv_of_installing hnext hpc
    · rw [Inv, hpc]
      exact hiff.mpr (hpasses s' fault hstep hpc)
  | program fs =>
    obtain ⟨hnext, hpc⟩ := hinstalling.program_step hstep
    exact inv_of_installing hnext hpc
  | finish =>
    obtain ⟨hpc, hrestored⟩ := hinstalling.finish_step hstep
    rw [Inv, hpc]
    exact hrestored

theorem step_ended {fault : Option InstallFault} (hpc : s.pc = .ended fault) :
    filesStep r s e = none := by
  cases e <;> rw [filesStep, hpc]

/-- A run that takes another step is still installing, whether or not its steps have passed. -/
theorem installing_of_run {w : List FilesEvent}
    (h : run (filesStep r) (start before) w = some s) (hstep : filesStep r s e = some s') :
    Installing r before s := by
  have hreach := (reachable_of_run h).invariant
    (fun s => (∃ fault, s.pc = .ended fault) ∨ Installing r before s)
    (.inr (installing_start r before)) ?_
  · rcases hreach with ⟨fault, hpc⟩ | hi
    · rw [step_ended hpc] at hstep
      cases hstep
    · exact hi
  · rintro u e v hu - hstep
    rcases hu with ⟨fault, hpc⟩ | hi
    · rw [step_ended hpc] at hstep
      cases hstep
    · cases e with
      | install h =>
        rcases hi.install_step hstep with ⟨hnext, -⟩ | ⟨fault, heq, -⟩
        · exact .inr hnext
        · exact .inl ⟨_, heq⟩
      | program fs => exact .inr (hi.program_step hstep).1
      | finish => exact .inl ⟨_, (hi.finish_step hstep).1⟩

/-- When a run has ended, the file system is restored exactly if every step has passed: no step of
the installation failed after a scratch directory was created, and none lost a process file. -/
theorem run_restores_iff (r : FilesRun) (before : FsTree) {w : List FilesEvent} {s : FilesVm}
    {fault : Option InstallFault} (h : run (filesStep r) (start before) w = some s)
    (hended : s.pc = .ended fault) :
    Restored r before s.fs ↔ Along (filesStep r) (Passes r before) (start before) w := by
  constructor
  · intro hrestored front e back u hw hfront
    cases e with
    | install host =>
      intro s' fault' hstep hpc
      rw [hw, run_append, hfront, Option.bind_some, run, hstep, Option.bind_some] at h
      -- The failure ends the run.
      have hlast : s' = s := by
        cases back with
        | nil => exact Option.some.inj h
        | cons e back =>
          rw [run, step_ended hpc] at h
          cases h
      subst hlast
      rcases (installing_of_run hfront hstep).install_step hstep with ⟨-, hnot⟩ | ⟨_, -, hiff⟩
      · exact absurd hpc (hnot _)
      · exact hiff.mp hrestored
    | program fs => trivial
    | finish => trivial
  · intro halong
    have hinv := (runs_of_along h halong).invariant (Inv r before)
      (inv_of_installing (installing_start r before) fun _ hpc => by cases hpc)
      fun _ _ _ hi hpasses hstep => inv_step hi hpasses hstep
    rw [Inv, hended] at hinv
    exact hinv

/-- A file system with the TraceKernel API, the scratch directory of the first engine and a file
`/input`. -/
def exampleFiles : FsTree :=
  .directory [("tracejvm", .directory [("runtime-1", .directory [])]),
    ("tracekernel-api", .directory [("io", .directory [("tracecode", .directory [("tracekernel",
      .directory (apiRuntimeFiles.map fun name => (name, .file [])))])])]),
    ("input", .file [1])]

/-- A run that replaces `/input`. -/
def exampleRun : FilesRun := ⟨1, 1, ⟨[], [], [⟨["", "input"], [2]⟩]⟩⟩

def exampleEvents : List FilesEvent := List.replicate 13 (.install .willing) ++ [.finish]

/-- The replaced file is restored. -/
theorem run_restores_input :
    ∃ s, run (filesStep exampleRun) (start exampleFiles) exampleEvents = some s ∧
      s.fs.contentAt ["input"] = some [1] ∧
      (Restored exampleRun exampleFiles s.fs ↔ Along (filesStep exampleRun)
        (Passes exampleRun exampleFiles) (start exampleFiles) exampleEvents) :=
  ⟨_, rfl, rfl, run_restores_iff exampleRun exampleFiles rfl rfl⟩

/-- The validation of a class file fails after the directory for the class files has been made, and
the directory stays. -/
theorem run_leaves_scratch :
    ∃ s fault, run (filesStep ⟨1, 1, ⟨[⟨["..", "A.class"], []⟩], [], []⟩⟩) (start exampleFiles)
        [.install .willing, .install .willing] = some s ∧ s.pc = .ended (some fault) ∧
      ¬ Restored ⟨1, 1, ⟨[⟨["..", "A.class"], []⟩], [], []⟩⟩ exampleFiles s.fs := by
  refine ⟨_, _, rfl, rfl, fun hrestored => ?_⟩
  have hgone := hrestored.scratch _ mem_cons_self rfl
  cases hgone

end FilesVm

end Runs

end TraceJvm
