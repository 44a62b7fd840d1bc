import TraceJvm.Linkage
import TraceJvm.StringInterning

/-! `ldc` of classes and strings. The entry of the constant pool caches the object that is pushed,
and one field of a class entry holds either the mirror or the exception of a failed resolution. -/
namespace TraceJvm

open Transition List Option OrderedMap

/-! ### The state -/

inductive LdcKind where
  | mirror (c : ClassRef)
  | exception
  deriving DecidableEq

structure LdcObject where
  id : ℕ
  kind : LdcKind
  deriving DecidableEq

structure CpClassInfo where
  classdesc : Option ClassRef
  /-- `vm_object` -/
  vmObject : Option ℕ
  /-- Whether the class could once not be loaded or linked for this entry, which no code reads. -/
  failed : Bool
  deriving DecidableEq

inductive LdcEntry where
  | classInfo (i : ℕ)
  | string (i : ℕ)
  deriving DecidableEq

/-- What an execution of `ldc` comes to: an object that is pushed, where null is `none`, or an
exception, perhaps because the class could not be loaded or linked. -/
inductive LdcResult where
  | pushed (o : Option LdcObject)
  | pushedString (o : StringObject)
  | threw (resolution : Bool)
  deriving DecidableEq

structure LdcRecord where
  thread : ℕ
  entry : LdcEntry
  result : LdcResult
  deriving DecidableEq

/-- A lookup of a class that is under way, for `ldc` or for another instruction. -/
structure LookupCall where
  thread : ℕ
  entry : ℕ
  ldc : Bool
  deriving DecidableEq

/-- Strings and other objects have their addresses in separate lists. -/
structure LdcVm where
  strings : InternVm
  objects : List (ℕ × LdcObject)
  /-- The number of objects that were ever created. -/
  made : ℕ
  /-- `mirror` of the classes -/
  mirrors : List (ClassRef × ℕ)
  /-- `class_info` of the entries -/
  infos : List (ℕ × CpClassInfo)
  /-- `string.interned` of the entries -/
  literals : List (ℕ × ℕ)
  /-- The lookups under way, the innermost first. -/
  calls : List LookupCall
  /-- The executions so far, the last one first. -/
  history : List LdcRecord
  deriving DecidableEq

def LdcVm.start : LdcVm := ⟨.start, [], 0, [], [], [], [], []⟩

/-- The constants: the class that the loader has for the name of a class entry, and the bytes of a
string entry. -/
structure LdcProgram where
  named : ℕ → ClassRef
  chars : ℕ → List UInt8

/-- A lookup runs Java code, so other steps come between its start and its end. The addresses that
an event gives are those of its allocations; if there are too few, memory is exhausted. `links` is
whether `link_class` returns 0. -/
inductive LdcEvent where
  | ldcClass (thread entry : ℕ) (links : Bool) (free : List ℕ)
  /-- `resolve_class` for another instruction -/
  | resolveClass (thread entry : ℕ)
  /-- The innermost lookup ends, perhaps with an exception. -/
  | lookupDone (exception : Option ℕ) (links : Bool) (free : List ℕ)
  | getClassMirror (c : ClassRef) (free : List ℕ)
  /-- The creation of an exception -/
  | throwable (address : ℕ)
  | ldcString (thread entry : ℕ) (free : Option ℕ)
  /-- Another operation on strings -/
  | strings (e : InternEvent)
  | majorGc (liveString : ℕ → Bool) (relocateString : ℕ → ℕ) (live : ℕ → Bool) (relocate : ℕ → ℕ)

/-! ### The steps -/

def CpClassInfo.relocated (i : CpClassInfo) (relocate : ℕ → ℕ) : CpClassInfo :=
  { i with vmObject := i.vmObject.map relocate }

namespace LdcVm

def info (v : LdcVm) (e : ℕ) : CpClassInfo :=
  (get v.infos e).getD ⟨none, none, false⟩

def setInfo (v : LdcVm) (e : ℕ) (i : CpClassInfo) : LdcVm :=
  { v with infos := set v.infos e i }

def record (v : LdcVm) (thread : ℕ) (entry : LdcEntry) (r : LdcResult) : LdcVm :=
  { v with history := ⟨thread, entry, r⟩ :: v.history }

def place (v : LdcVm) (address : ℕ) (kind : LdcKind) : Option LdcVm :=
  match get v.objects address with
  | some _ => none
  | none => some { v with
      objects := (address, ⟨v.made, kind⟩) :: v.objects
      made := v.made + 1 }

def newMirror (v : LdcVm) (c : ClassRef) (address : ℕ) : Option LdcVm :=
  (v.place address (.mirror c)).map fun v =>
    { v with mirrors := set v.mirrors c address }

/-- `get_class_mirror`, by the dimensions of the class: null if the mirror cannot be allocated.
What becomes of the mirror of the component is not looked at. -/
def getClassMirror (base : ℕ) : ℕ → List ℕ → LdcVm → Option (Option ℕ × LdcVm)
  | 0, free, v =>
    match get v.mirrors ⟨base, 0⟩, free with
    | some a, _ => some (some a, v)
    | none, [] => some (none, v)
    | none, a :: _ => (v.newMirror ⟨base, 0⟩ a).map fun v => (some a, v)
  | dims + 1, free, v =>
    match get v.mirrors ⟨base, dims + 1⟩, free with
    | some a, _ => some (some a, v)
    | none, [] => some (none, v)
    | none, a :: free =>
      (v.newMirror ⟨base, dims + 1⟩ a).bind fun v =>
        (getClassMirror base dims free v).map fun r => (some a, r.2)

/-- The rest of `ldc` after `resolve_class`: whether the mirror is null is not looked at. -/
def pushMirror (v : LdcVm) (thread entry : ℕ) (c : ClassRef) (links : Bool) (free : List ℕ) :
    Option LdcVm :=
  if links then
    (getClassMirror c.base c.dims free v).map fun r =>
      (r.2.setInfo entry { r.2.info entry with vmObject := r.1 }).record thread (.classInfo entry)
        (.pushed (r.1.bind fun a => get r.2.objects a))
  else
    some ((v.setInfo entry { v.info entry with failed := true }).record thread (.classInfo entry)
      (.threw true))

/-- `ldc` of a class up to the lookup. -/
def ldcClass (v : LdcVm) (thread entry : ℕ) (links : Bool) (free : List ℕ) : Option LdcVm :=
  match (v.info entry).vmObject with
  | some a => some (v.record thread (.classInfo entry) (.pushed (get v.objects a)))
  | none =>
    match (v.info entry).classdesc with
    | some c => v.pushMirror thread entry c links free
    | none => some { v with calls := ⟨thread, entry, true⟩ :: v.calls }

/-- `resolve_class` up to the lookup. -/
def resolveClass (v : LdcVm) (thread entry : ℕ) : LdcVm :=
  if (v.info entry).classdesc = none ∧ (v.info entry).vmObject = none then
    { v with calls := ⟨thread, entry, false⟩ :: v.calls }
  else v

def found (P : LdcProgram) (v : LdcVm) (call : LookupCall) (links : Bool) (free : List ℕ) :
    Option LdcVm :=
  let c := P.named call.entry
  let v := v.setInfo call.entry { v.info call.entry with classdesc := some c }
  if call.ldc then v.pushMirror call.thread call.entry c links free else some v

def notFound (v : LdcVm) (call : LookupCall) (exception : ℕ) : Option LdcVm :=
  match get v.objects exception with
  | some ⟨_, .exception⟩ =>
    let v := v.setInfo call.entry ⟨none, some exception, true⟩
    some (if call.ldc then v.record call.thread (.classInfo call.entry) (.threw true) else v)
  | _ => none

def lookupDone (P : LdcProgram) (v : LdcVm) (exception : Option ℕ) (links : Bool)
    (free : List ℕ) : Option LdcVm :=
  match v.calls with
  | [] => none
  | call :: rest =>
    match exception with
    | none => { v with calls := rest }.found P call links free
    | some a => { v with calls := rest }.notFound call a

/-- `ldc` of a string. -/
def ldcString (P : LdcProgram) (v : LdcVm) (thread entry : ℕ) (free : Option ℕ) : Option LdcVm :=
  match get v.literals entry with
  | some a =>
    (get v.strings.heap a).map fun o =>
      v.record thread (.string entry) (.pushedString o)
  | none =>
    let source := StringSource.modifiedUtf8 (P.chars entry)
    match free, source.string with
    | some a, some string =>
      (internStep v.strings (.makeJString source a true)).bind fun strings =>
        let r := (v.strings.lookupInterned string).getD a
        (get strings.heap r).map fun o =>
          { v with
            strings := strings
            literals := OrderedMap.set v.literals entry r }.record thread (.string entry)
              (.pushedString o)
    | _, _ => some (v.record thread (.string entry) (.threw false))

/-- The roots among the objects: the mirrors and the cached objects of class entries. -/
def Roots (v : LdcVm) (live : ℕ → Bool) : Prop :=
  (∀ m ∈ v.mirrors, live m.2 = true) ∧ ∀ i ∈ v.infos, ∀ a ∈ i.2.vmObject, live a = true

instance (v : LdcVm) (live : ℕ → Bool) : Decidable (v.Roots live) := by
  unfold Roots
  infer_instance

/-- A collection keeps what its roots hold and updates their addresses. -/
def majorGc (v : LdcVm) (liveString : ℕ → Bool) (relocateString : ℕ → ℕ) (live : ℕ → Bool)
    (relocate : ℕ → ℕ) : Option LdcVm :=
  (v.strings.majorGc liveString relocateString).bind fun strings =>
    let objects := (v.objects.filter fun p => live p.1).map fun p => (relocate p.1, p.2)
    if (objects.map Prod.fst).Nodup ∧ v.Roots live ∧ ∀ l ∈ v.literals, liveString l.2 = true then
      some { v with
        strings := strings
        objects := objects
        mirrors := v.mirrors.map fun m => (m.1, relocate m.2)
        infos := v.infos.map fun i => (i.1, i.2.relocated relocate)
        literals := v.literals.map fun l => (l.1, relocateString l.2) }
    else none

end LdcVm

def ldcStep (P : LdcProgram) (v : LdcVm) : LdcEvent → Option LdcVm
  | .ldcClass thread entry links free => v.ldcClass thread entry links free
  | .resolveClass thread entry => some (v.resolveClass thread entry)
  | .lookupDone exception links free => v.lookupDone P exception links free
  | .getClassMirror c free => (LdcVm.getClassMirror c.base c.dims free v).map Prod.snd
  | .throwable address => v.place address .exception
  | .ldcString thread entry free => v.ldcString P thread entry free
  | .strings (.majorGc _ _) => none
  | .strings e => (internStep v.strings e).map fun strings => { v with strings := strings }
  | .majorGc liveString relocateString live relocate =>
    v.majorGc liveString relocateString live relocate

/-! ### What `ldc` is to do -/

def LdcResult.Throws : LdcResult → Prop
  | .threw _ => True
  | _ => False

/-- Each execution pushes the mirror of the named class, or an interned string with the characters
of the constant, and the same object every time, or throws; after a failed resolution all throw; and
what is cached is in the heap. -/
structure LdcRight (P : LdcProgram) (v : LdcVm) : Prop where
  mirror : ∀ r ∈ v.history, ∀ x, r.result = .pushed x →
    ∃ e id, r.entry = .classInfo e ∧ x = some ⟨id, .mirror (P.named e)⟩
  string : ∀ r ∈ v.history, ∀ o, r.result = .pushedString o →
    ∃ e, r.entry = .string e ∧ convertModifiedUtf8ToChars (P.chars e) = some o.string.chars ∧
      ∃ a, (o.string.value, a) ∈ v.strings.interned ∧ (a, o) ∈ v.strings.heap
  sameMirror : ∀ r ∈ v.history, ∀ r' ∈ v.history, ∀ x x', r.entry = r'.entry →
    r.result = .pushed x → r'.result = .pushed x' → x = x'
  sameString : ∀ r ∈ v.history, ∀ r' ∈ v.history, ∀ o o', r.entry = r'.entry →
    r.result = .pushedString o → r'.result = .pushedString o' → o = o'
  failures : v.history.Pairwise fun later r =>
    r.result = .threw true → later.entry = r.entry → later.result.Throws
  cached : ∀ e a, (v.info e).vmObject = some a → ∃ o, (a, o) ∈ v.objects
  literals : ∀ e a, OrderedMap.get v.literals e = some a → ∃ o, (a, o) ∈ v.strings.heap

def LdcVm.MirrorFits (P : LdcProgram) (v : LdcVm) (e : ℕ) (links : Bool) (free : List ℕ) : Prop :=
  links = true → get v.mirrors (P.named e) = none → free ≠ []

/-- No class constant is used whose resolution has failed, no mirror runs out of memory, and no
lookup confuses two strings. -/
def LdcOk (P : LdcProgram) (v : LdcVm) : LdcEvent → Prop
  | .ldcClass _ e links free => (v.info e).failed = false ∧
    ((v.info e).vmObject = none → (v.info e).classdesc ≠ none → v.MirrorFits P e links free)
  | .lookupDone none links free => ∀ call ∈ v.calls.head?, call.ldc = true →
    (v.info call.entry).failed = false ∧ v.MirrorFits P call.entry links free
  | .ldcString _ e (some a) => get v.literals e = none →
    Unconfused v.strings (.makeJString (.modifiedUtf8 (P.chars e)) a true)
  | .strings e => Unconfused v.strings e
  | _ => True

/-- The invariant: a cached object is the mirror unless a resolution has failed, mirrors and
literals are kept, and the history tells what was pushed. -/
structure LdcInv (P : LdcProgram) (v : LdcVm) : Prop where
  strings : InternInv v.strings
  addresses : (v.objects.map Prod.fst).Nodup
  mirrors : ∀ c a, OrderedMap.get v.mirrors c = some a → ∃ id, (a, ⟨id, .mirror c⟩) ∈ v.objects
  classdesc : ∀ e c, (v.info e).classdesc = some c → c = P.named e
  cached : ∀ e a, (v.info e).vmObject = some a →
    (∃ o, (a, o) ∈ v.objects) ∧ ((v.info e).failed = false → get v.mirrors (P.named e) = some a)
  literals : ∀ e a, OrderedMap.get v.literals e = some a → ∃ o, (a, o) ∈ v.strings.heap ∧
    convertModifiedUtf8ToChars (P.chars e) = some o.string.chars ∧
    (o.string.value, a) ∈ v.strings.interned
  pushed : ∀ r ∈ v.history, ∀ x, r.result = .pushed x → ∃ e a o, r.entry = .classInfo e ∧
    x = some o ∧ get v.mirrors (P.named e) = some a ∧ (a, o) ∈ v.objects
  pushedString : ∀ r ∈ v.history, ∀ o, r.result = .pushedString o →
    ∃ e a, r.entry = .string e ∧ get v.literals e = some a ∧ (a, o) ∈ v.strings.heap
  failed : ∀ r ∈ v.history, r.result = .threw true →
    ∃ e, r.entry = .classInfo e ∧ (v.info e).failed = true
  failures : v.history.Pairwise fun later r =>
    r.result = .threw true → later.entry = r.entry → later.result.Throws

/-! ### Strings -/

namespace InternVm

variable {v v' : InternVm}

def Keeps (v v' : InternVm) : Prop := v.heap ⊆ v'.heap ∧ v.interned ⊆ v'.interned

theorem Keeps.trans {w : InternVm} (h : v.Keeps v') (h' : v'.Keeps w) : v.Keeps w :=
  ⟨List.Subset.trans h.1 h'.1, List.Subset.trans h.2 h'.2⟩

theorem place_keeps {address : ℕ} {string : JString} (h : v.place address string = some v') :
    v.Keeps v' := by
  unfold place at h
  split at h
  · cases h
  · cases h
    exact ⟨subset_cons_self _ _, List.Subset.refl _⟩

theorem answer_eq {asked : JString} {interns : Bool} {address : ℕ}
    (h : v.answer asked interns address = some v') :
    ∃ o, (address, o) ∈ v.heap ∧ v' = { v with
      results := ⟨asked.chars, o, interns⟩ :: v.results } := by
  obtain ⟨o, ho, rfl⟩ := map_eq_some_iff.mp h
  exact ⟨o, mem_of_get ho, rfl⟩

/-- An interning call returns the object at the address that the table has, or else the string. -/
theorem lookup_returns {string : JString} {address : ℕ} {intern : Bool}
    (h : v.lookup string address intern = some v') :
    v.Keeps v' ∧ ∃ o, ((v.lookupInterned string).getD address, o) ∈ v'.heap ∧
      ⟨string.chars, o, intern⟩ ∈ v'.results := by
  unfold lookup at h
  split at h
  · rename_i r hr
    obtain ⟨o, ho, rfl⟩ := answer_eq h
    rw [hr]
    exact ⟨⟨List.Subset.refl _, List.Subset.refl _⟩, o, ho, mem_cons_self⟩
  · rename_i hnone
    obtain ⟨o, ho, rfl⟩ := answer_eq h
    rw [hnone]
    cases intern with
    | false => exact ⟨⟨List.Subset.refl _, List.Subset.refl _⟩, o, ho, mem_cons_self⟩
    | true =>
      refine ⟨⟨List.Subset.refl _, ?_⟩, o, ho, mem_cons_self⟩
      show v.interned ⊆ set v.interned string.value address
      rw [set_of_get_none address hnone]
      exact subset_append_left _ _

theorem step_keeps {e : InternEvent} (he : ∀ live relocate, e ≠ .majorGc live relocate)
    (h : internStep v e = some v') : v.Keeps v' := by
  cases e with
  | create address string => exact place_keeps h
  | internJString address =>
    obtain ⟨o, -, hlookup⟩ := bind_eq_some_iff.mp h
    exact (lookup_returns hlookup).1
  | makeJString source address intern =>
    unfold internStep at h
    dsimp only at h
    split at h
    · cases h
      exact ⟨List.Subset.refl _, List.Subset.refl _⟩
    · obtain ⟨w, hw, hlookup⟩ := bind_eq_some_iff.mp h
      exact (place_keeps hw).trans (lookup_returns hlookup).1
  | majorGc live relocate => exact absurd rfl (he live relocate)

theorem majorGc_moves {live : ℕ → Bool} {relocate : ℕ → ℕ}
    (h : v.majorGc live relocate = some v') :
    (∀ {a o}, (a, o) ∈ v.heap → live a = true → (relocate a, o) ∈ v'.heap) ∧
      ∀ {k a}, (k, a) ∈ v.interned → (k, relocate a) ∈ v'.interned := by
  unfold majorGc at h
  dsimp only at h
  split at h
  · cases h
    constructor
    · intro a o ho ha
      exact mem_map.mpr ⟨(a, o), mem_filter.mpr ⟨ho, ha⟩, rfl⟩
    · intro k a ha
      exact mem_map.mpr ⟨(k, a), ha, rfl⟩
  · cases h

end InternVm

/-- What `ldc` of a string gets is the interned string with its characters. -/
theorem InternInv.makeJString {v v' : InternVm} (h : InternInv v) {source : StringSource}
    {string : JString} {address : ℕ} (hsource : source.string = some string)
    (hok : Unconfused v (.makeJString source address true))
    (hv : internStep v (.makeJString source address true) = some v') :
    InternInv v' ∧ v.Keeps v' ∧ ∃ o, ((v.lookupInterned string).getD address, o) ∈ v'.heap ∧
      o.string.chars = string.chars ∧
      (o.string.value, (v.lookupInterned string).getD address) ∈ v'.interned := by
  have hinv := h.step hok hv
  refine ⟨hinv, InternVm.step_keeps (fun _ _ heq => by cases heq) hv, ?_⟩
  unfold internStep at hv
  simp only [hsource] at hv
  obtain ⟨w, hw, hlookup⟩ := bind_eq_some_iff.mp hv
  have hinterned : w.lookupInterned string = v.lookupInterned string := by
    unfold InternVm.place at hw
    split at hw
    · cases hw
    · cases hw
      rfl
  obtain ⟨-, o, ho, hresult⟩ := InternVm.lookup_returns hlookup
  rw [hinterned] at ho
  refine ⟨o, ho, hinv.contents _ hresult, ?_⟩
  obtain ⟨a, hentry, ha⟩ := hinv.returned _ hresult rfl
  have haddress := inj_on_of_nodup_map hinv.ids ho ha rfl
  rw [(Prod.mk.inj haddress).1]
  exact hentry

/-! ### The invariant -/

namespace LdcVm

variable {v v' : LdcVm}

@[simp] theorem info_setInfo (v : LdcVm) (e e' : ℕ) (i : CpClassInfo) :
    (v.setInfo e i).info e' = if e = e' then i else v.info e' := by
  unfold info setInfo
  rw [get_set]
  split <;> rfl

theorem place_eq {address : ℕ} {kind : LdcKind} (h : v.place address kind = some v') :
    get v.objects address = none ∧ v' = { v with
        objects := (address, ⟨v.made, kind⟩) :: v.objects
        made := v.made + 1 } := by
  unfold place at h
  split at h
  · cases h
  · rename_i hfree
    exact ⟨hfree, (some.inj h).symm⟩

theorem newMirror_eq {c : ClassRef} {address : ℕ} (h : v.newMirror c address = some v') :
    get v.objects address = none ∧ v' = { v with
        objects := (address, ⟨v.made, .mirror c⟩) :: v.objects
        made := v.made + 1
        mirrors := set v.mirrors c address } := by
  obtain ⟨w, hw, rfl⟩ := map_eq_some_iff.mp h
  obtain ⟨hfree, rfl⟩ := place_eq hw
  exact ⟨hfree, rfl⟩

theorem info_relocate {relocate : ℕ → ℕ}
    (h : v'.infos = v.infos.map fun i => (i.1, i.2.relocated relocate)) (e : ℕ) :
    v'.info e = (v.info e).relocated relocate := by
  unfold info
  rw [h, get_map fun i : CpClassInfo => i.relocated relocate]
  cases get v.infos e <;> rfl

theorem info_live {live : ℕ → Bool}
    (hlive : ∀ i ∈ v.infos, ∀ a ∈ i.2.vmObject, live a = true) {e a : ℕ}
    (ha : (v.info e).vmObject = some a) : live a = true := by
  unfold info at ha
  cases hget : get v.infos e with
  | none =>
    rw [hget] at ha
    cases ha
  | some i =>
    rw [hget] at ha
    exact hlive _ (mem_of_get hget) a ha

theorem fresh {address : ℕ} (h : get v.objects address = none) :
    address ∉ v.objects.map Prod.fst := by
  intro hmem
  obtain ⟨p, hp, heq⟩ := mem_map.mp hmem
  exact get_eq_none.mp h p hp heq

end LdcVm

namespace LdcInv

variable {P : LdcProgram} {v v' : LdcVm}

theorem start (P : LdcProgram) : LdcInv P .start where
  strings := .start
  addresses := nodup_nil
  mirrors _ _ h := nomatch h
  classdesc _ _ h := nomatch h
  cached _ _ h := nomatch h
  literals _ _ h := nomatch h
  pushed _ hr := absurd hr not_mem_nil
  pushedString _ hr := absurd hr not_mem_nil
  failed _ hr := absurd hr not_mem_nil
  failures := .nil

theorem object_unique (h : LdcInv P v) {a : ℕ} {o o' : LdcObject} (ho : (a, o) ∈ v.objects)
    (ho' : (a, o') ∈ v.objects) : o = o' := by
  have hget := get_of_mem h.addresses ho
  rw [get_of_mem h.addresses ho'] at hget
  exact (some.inj hget).symm

theorem right (h : LdcInv P v) : LdcRight P v where
  mirror r hr x hx := by
    obtain ⟨e, a, o, he, rfl, hmirror, ho⟩ := h.pushed r hr x hx
    obtain ⟨id, hid⟩ := h.mirrors _ a hmirror
    rw [h.object_unique ho hid]
    exact ⟨e, id, he, rfl⟩
  string r hr o ho := by
    obtain ⟨e, a, he, hliteral, hheap⟩ := h.pushedString r hr o ho
    obtain ⟨o', hheap', hchars, hentry⟩ := h.literals e a hliteral
    obtain rfl := h.strings.object_unique hheap hheap'
    exact ⟨e, he, hchars, a, hentry, hheap⟩
  sameMirror r hr r' hr' x x' hentry hx hx' := by
    obtain ⟨e, a, o, he, rfl, hmirror, ho⟩ := h.pushed r hr x hx
    obtain ⟨e', a', o', he', rfl, hmirror', ho'⟩ := h.pushed r' hr' x' hx'
    rw [he, he'] at hentry
    cases hentry
    rw [hmirror] at hmirror'
    cases hmirror'
    rw [h.object_unique ho ho']
  sameString r hr r' hr' o o' hentry ho ho' := by
    obtain ⟨e, a, he, hliteral, hheap⟩ := h.pushedString r hr o ho
    obtain ⟨e', a', he', hliteral', hheap'⟩ := h.pushedString r' hr' o' ho'
    rw [he, he'] at hentry
    cases hentry
    rw [hliteral] at hliteral'
    cases hliteral'
    exact h.strings.object_unique hheap hheap'
  failures := h.failures
  cached e a ha := (h.cached e a ha).1
  literals e a ha := by
    obtain ⟨o, ho, -⟩ := h.literals e a ha
    exact ⟨o, ho⟩

/-- A further execution whose result fits what is cached. -/
theorem record (h : LdcInv P v) {t : ℕ} {entry : LdcEntry} {result : LdcResult}
    (hpushed : ∀ x, result = .pushed x → ∃ e a o, entry = .classInfo e ∧ x = some o ∧
      get v.mirrors (P.named e) = some a ∧ (a, o) ∈ v.objects)
    (hstring : ∀ o, result = .pushedString o → ∃ e a, entry = .string e ∧
      get v.literals e = some a ∧ (a, o) ∈ v.strings.heap)
    (hfailed : result = .threw true → ∃ e, entry = .classInfo e ∧ (v.info e).failed = true)
    (hthrows : ∀ e, entry = .classInfo e → (v.info e).failed = true → result.Throws) :
    LdcInv P (v.record t entry result) :=
  { h with
    pushed := forall_mem_cons.mpr ⟨hpushed, h.pushed⟩
    pushedString := forall_mem_cons.mpr ⟨hstring, h.pushedString⟩
    failed := forall_mem_cons.mpr ⟨hfailed, h.failed⟩
    failures := by
      apply pairwise_cons.mpr ⟨_, h.failures⟩
      intro r hr hthrew heq
      obtain ⟨e, he, htrue⟩ := h.failed r hr hthrew
      exact hthrows e ((show entry = r.entry from heq).trans he) htrue }

theorem throws (h : LdcInv P v) (t : ℕ) (entry : LdcEntry) (resolution : Bool)
    (hfailed : resolution = true → ∃ e, entry = .classInfo e ∧ (v.info e).failed = true) :
    LdcInv P (v.record t entry (.threw resolution)) := by
  apply h.record
  · intro x hx
    cases hx
  · intro o ho
    cases ho
  · intro hthrew
    cases hthrew
    exact hfailed rfl
  · intro _ _ _
    trivial

theorem pushes (h : LdcInv P v) (t : ℕ) {e a : ℕ} (hfailed : (v.info e).failed = false)
    (hmirror : get v.mirrors (P.named e) = some a) :
    LdcInv P (v.record t (.classInfo e) (.pushed (get v.objects a))) := by
  apply h.record
  · intro x hx
    cases hx
    obtain ⟨id, ho⟩ := h.mirrors _ a hmirror
    exact ⟨e, a, _, rfl, get_of_mem h.addresses ho, hmirror, ho⟩
  · intro o ho
    cases ho
  · intro hthrew
    cases hthrew
  · intro e' he' htrue
    cases he'
    rw [hfailed] at htrue
    cases htrue

theorem pushesString (h : LdcInv P v) (t : ℕ) {e a : ℕ} {o : StringObject}
    (hliteral : get v.literals e = some a) (ho : (a, o) ∈ v.strings.heap) :
    LdcInv P (v.record t (.string e) (.pushedString o)) := by
  apply h.record
  · intro x hx
    cases hx
  · intro o' ho'
    cases ho'
    exact ⟨e, a, rfl, hliteral, ho⟩
  · intro hthrew
    cases hthrew
  · intro e' he'
    cases he'

/-- A change of a class entry. -/
theorem setInfo (h : LdcInv P v) {e : ℕ} {i : CpClassInfo}
    (hclass : ∀ c, i.classdesc = some c → c = P.named e)
    (hcached : ∀ a, i.vmObject = some a → (∃ o, (a, o) ∈ v.objects) ∧
      (i.failed = false → get v.mirrors (P.named e) = some a))
    (hfailed : (v.info e).failed = true → i.failed = true) : LdcInv P (v.setInfo e i) :=
  { h with
    classdesc e' c hc := by
      rw [LdcVm.info_setInfo] at hc
      split at hc
      · rename_i heq
        rw [hclass c hc, heq]
      · exact h.classdesc e' c hc
    cached e' a ha := by
      rw [LdcVm.info_setInfo] at ha ⊢
      by_cases heq : e = e'
      · subst heq
        rw [if_pos rfl] at ha ⊢
        exact hcached a ha
      · rw [if_neg heq] at ha ⊢
        exact h.cached e' a ha
    failed r hr hthrew := by
      obtain ⟨e', he', htrue⟩ := h.failed r hr hthrew
      refine ⟨e', he', ?_⟩
      rw [LdcVm.info_setInfo]
      split
      · rename_i heq
        rw [heq] at hfailed
        exact hfailed htrue
      · exact htrue }

/-- New objects and new mirrors. -/
theorem grows (h : LdcInv P v) {objects : List (ℕ × LdcObject)} {mirrors : List (ClassRef × ℕ)}
    (made : ℕ) (haddresses : (objects.map Prod.fst).Nodup)
    (hmirrors : ∀ c a, OrderedMap.get mirrors c = some a → ∃ id, (a, ⟨id, .mirror c⟩) ∈ objects)
    (hobjects : v.objects ⊆ objects)
    (hkept : ∀ c a, OrderedMap.get v.mirrors c = some a → OrderedMap.get mirrors c = some a) :
    LdcInv P { v with objects := objects, made := made, mirrors := mirrors } :=
  { h with
    addresses := haddresses
    mirrors := hmirrors
    cached e a ha := by
      obtain ⟨⟨o, ho⟩, hmirror⟩ := h.cached e a ha
      exact ⟨⟨o, hobjects ho⟩, fun hfailed => hkept _ _ (hmirror hfailed)⟩
    pushed r hr x hx := by
      obtain ⟨e, a, o, he, hxo, hmirror, ho⟩ := h.pushed r hr x hx
      exact ⟨e, a, o, he, hxo, hkept _ _ hmirror, hobjects ho⟩ }

theorem place (h : LdcInv P v) {address : ℕ} {kind : LdcKind}
    (hv : v.place address kind = some v') : LdcInv P v' := by
  obtain ⟨hfree, rfl⟩ := LdcVm.place_eq hv
  apply h.grows (v.made + 1) _ _ (subset_cons_self _ _) fun _ _ hc => hc
  · rw [map_cons, nodup_cons]
    exact ⟨LdcVm.fresh hfree, h.addresses⟩
  · intro c a ha
    obtain ⟨id, hid⟩ := h.mirrors c a ha
    exact ⟨id, mem_cons_of_mem _ hid⟩

theorem newMirror_keeps (h : LdcInv P v) {c : ClassRef} {address : ℕ}
    (hnone : get v.mirrors c = none) (hv : v.newMirror c address = some v') :
    LdcInv P v' ∧ v'.infos = v.infos ∧
      (∀ c a, OrderedMap.get v.mirrors c = some a → OrderedMap.get v'.mirrors c = some a) ∧
      get v'.mirrors c = some address := by
  obtain ⟨hfree, rfl⟩ := LdcVm.newMirror_eq hv
  have hkept (c' : ClassRef) (a : ℕ) (ha : get v.mirrors c' = some a) :
      get (set v.mirrors c address) c' = some a := by
    rw [get_set_of_ne, ha]
    rintro rfl
    rw [hnone] at ha
    cases ha
  refine ⟨?_, rfl, hkept, get_set_self _ _ _⟩
  apply h.grows (v.made + 1) _ _ (subset_cons_self _ _) hkept
  · rw [map_cons, nodup_cons]
    exact ⟨LdcVm.fresh hfree, h.addresses⟩
  · intro c' a ha
    rw [get_set] at ha
    split at ha
    · rename_i heq
      cases ha
      rw [← heq]
      exact ⟨v.made, mem_cons_self⟩
    · obtain ⟨id, hid⟩ := h.mirrors c' a ha
      exact ⟨id, mem_cons_of_mem _ hid⟩

variable {free : List ℕ}

/-- The mirror that the function returns is the one the class keeps, and it is null only if it could
not be allocated. -/
theorem getClassMirror {base dims : ℕ} {r : Option ℕ} (h : LdcInv P v)
    (hv : LdcVm.getClassMirror base dims free v = some (r, v')) :
    LdcInv P v' ∧ v'.infos = v.infos ∧
      (∀ c a, OrderedMap.get v.mirrors c = some a → OrderedMap.get v'.mirrors c = some a) ∧
      (∀ a, r = some a → get v'.mirrors ⟨base, dims⟩ = some a) ∧
      (r = none → get v.mirrors ⟨base, dims⟩ = none ∧ free = []) := by
  induction dims generalizing free v r with
  | zero =>
    unfold LdcVm.getClassMirror at hv
    split at hv
    · rename_i hsome
      cases hv
      refine ⟨h, rfl, fun _ _ hc => hc, ?_, nofun⟩
      intro a ha
      rw [hsome, ha]
    · rename_i hnone
      cases hv
      exact ⟨h, rfl, fun _ _ hc => hc, nofun, fun _ => ⟨hnone, rfl⟩⟩
    · rename_i hnone
      obtain ⟨w, hw, heq⟩ := map_eq_some_iff.mp hv
      cases heq
      obtain ⟨hinv, hinfos, hkept, hself⟩ := h.newMirror_keeps hnone hw
      refine ⟨hinv, hinfos, hkept, ?_, nofun⟩
      intro a ha
      rw [hself, ha]
  | succ dims ih =>
    unfold LdcVm.getClassMirror at hv
    split at hv
    · rename_i hsome
      cases hv
      refine ⟨h, rfl, fun _ _ hc => hc, ?_, nofun⟩
      intro a ha
      rw [hsome, ha]
    · rename_i hnone
      cases hv
      exact ⟨h, rfl, fun _ _ hc => hc, nofun, fun _ => ⟨hnone, rfl⟩⟩
    · rename_i hnone
      obtain ⟨w, hw, hv⟩ := bind_eq_some_iff.mp hv
      obtain ⟨⟨r', w'⟩, hr, heq⟩ := map_eq_some_iff.mp hv
      cases heq
      obtain ⟨hinv, hinfos, hkept, hself⟩ := h.newMirror_keeps hnone hw
      obtain ⟨hinv', hinfos', hkept', -, -⟩ := ih hinv hr
      refine ⟨hinv', hinfos'.trans hinfos, fun c a hc => hkept' c a (hkept c a hc), ?_, nofun⟩
      intro a ha
      cases ha
      exact hkept' _ _ hself

/-- The end of `ldc` of a class. -/
theorem pushMirror (h : LdcInv P v) (t : ℕ) {e : ℕ} {links : Bool}
    (hfailed : (v.info e).failed = false) (hfits : v.MirrorFits P e links free)
    (hv : v.pushMirror t e (P.named e) links free = some v') : LdcInv P v' := by
  unfold LdcVm.pushMirror at hv
  cases links with
  | false =>
    rw [if_neg Bool.false_ne_true] at hv
    cases hv
    apply LdcInv.throws
    · exact h.setInfo (h.classdesc e) (fun a ha => ⟨(h.cached e a ha).1, fun h => by cases h⟩)
        fun _ => rfl
    · intro _
      refine ⟨e, rfl, ?_⟩
      rw [LdcVm.info_setInfo, if_pos rfl]
  | true =>
    rw [if_pos rfl] at hv
    obtain ⟨⟨r, w⟩, hr, heq⟩ := map_eq_some_iff.mp hv
    cases heq
    obtain ⟨hinv, hinfos, hkept, hmirror, hnull⟩ := h.getClassMirror hr
    have hinfo : w.info e = v.info e := by
      unfold LdcVm.info
      rw [hinfos]
    cases r with
    | none =>
      obtain ⟨hnone, hempty⟩ := hnull rfl
      exact absurd hempty (hfits rfl hnone)
    | some a =>
      have hself := hmirror a rfl
      have hset : LdcInv P (w.setInfo e { w.info e with vmObject := some a }) := by
        apply hinv.setInfo
        · intro c hc
          exact hinv.classdesc e c hc
        · intro b hb
          cases hb
          obtain ⟨id, hid⟩ := hinv.mirrors _ a hself
          exact ⟨⟨_, hid⟩, fun _ => hself⟩
        · intro htrue
          exact htrue
      apply hset.pushes t _ hself
      rw [LdcVm.info_setInfo, if_pos rfl]
      show (w.info e).failed = false
      rw [hinfo]
      exact hfailed

/-- An operation on strings, after which a literal may have been added. -/
theorem setStrings (h : LdcInv P v) {strings : InternVm} {literals : List (ℕ × ℕ)}
    (hstrings : InternInv strings) (hkeeps : v.strings.Keeps strings)
    (hold : ∀ e a, OrderedMap.get v.literals e = some a → OrderedMap.get literals e = some a)
    (hnew : ∀ e a, OrderedMap.get literals e = some a → OrderedMap.get v.literals e = some a ∨
      ∃ o, (a, o) ∈ strings.heap ∧
        convertModifiedUtf8ToChars (P.chars e) = some o.string.chars ∧
        (o.string.value, a) ∈ strings.interned) :
    LdcInv P { v with strings := strings, literals := literals } :=
  { h with
    strings := hstrings
    literals e a ha := by
      rcases hnew e a ha with hliteral | hliteral
      · obtain ⟨o, ho, hchars, hentry⟩ := h.literals e a hliteral
        exact ⟨o, hkeeps.1 ho, hchars, hkeeps.2 hentry⟩
      · exact hliteral
    pushedString r hr o ho := by
      obtain ⟨e, a, he, hliteral, hheap⟩ := h.pushedString r hr o ho
      exact ⟨e, a, he, hold e a hliteral, hkeeps.1 hheap⟩ }

/-- `ldc` of a string. -/
theorem ldcString (h : LdcInv P v) {t e : ℕ} {free : Option ℕ}
    (hok : LdcOk P v (.ldcString t e free)) (hv : v.ldcString P t e free = some v') :
    LdcInv P v' := by
  unfold LdcVm.ldcString at hv
  split at hv
  · rename_i a hliteral
    obtain ⟨o, ho, rfl⟩ := map_eq_some_iff.mp hv
    exact h.pushesString t hliteral (mem_of_get ho)
  · rename_i hnone
    dsimp only at hv
    split at hv
    · rename_i a string hsource
      obtain ⟨strings, hstep, hv⟩ := bind_eq_some_iff.mp hv
      obtain ⟨o, ho, rfl⟩ := map_eq_some_iff.mp hv
      obtain ⟨hinv, hkeeps, o', ho', hchars, hentry⟩ :=
        h.strings.makeJString hsource (hok hnone) hstep
      have hmem := mem_of_get ho
      obtain rfl := hinv.object_unique hmem ho'
      have hutf8 : convertModifiedUtf8ToChars (P.chars e) = some o.string.chars := by
        obtain ⟨chars, hconvert, hstring⟩ := map_eq_some_iff.mp hsource
        rw [hconvert, hchars, ← hstring, JString.chars_ofUnits]
      apply pushesString _ t (get_set_self _ _ _) hmem
      apply h.setStrings hinv hkeeps
      · intro e' a' ha'
        rw [get_set_of_ne, ha']
        rintro rfl
        rw [hnone] at ha'
        cases ha'
      · intro e' a' ha'
        rw [get_set] at ha'
        split at ha'
        · rename_i heq
          cases ha'
          rw [← heq]
          exact Or.inr ⟨o, hmem, hutf8, hentry⟩
        · exact Or.inl ha'
    · cases hv
      exact h.throws t _ false fun h => by cases h

theorem majorGc (h : LdcInv P v) {liveString live : ℕ → Bool} {relocateString relocate : ℕ → ℕ}
    (hv : v.majorGc liveString relocateString live relocate = some v') : LdcInv P v' := by
  obtain ⟨strings, hstrings, hv⟩ := bind_eq_some_iff.mp hv
  dsimp only at hv
  split at hv
  · rename_i hvalid
    obtain ⟨haddresses, ⟨hmirrors, hinfos⟩, hliterals⟩ := hvalid
    have heq := some.inj hv
    have hmoved {a : ℕ} {o : LdcObject} (ho : (a, o) ∈ v.objects) (ha : live a = true) :
        (relocate a, o) ∈ v'.objects := by
      rw [← heq]
      exact mem_map.mpr ⟨(a, o), mem_filter.mpr ⟨ho, ha⟩, rfl⟩
    have hinfo (e : ℕ) : v'.info e = (v.info e).relocated relocate := by
      apply LdcVm.info_relocate
      rw [← heq]
    have hmirror (c : ClassRef) : get v'.mirrors c = (get v.mirrors c).map relocate := by
      rw [← heq]
      exact get_map relocate v.mirrors c
    have hliteral (e : ℕ) : get v'.literals e = (get v.literals e).map relocateString := by
      rw [← heq]
      exact get_map relocateString v.literals e
    have hnew : v'.strings = strings := by
      rw [← heq]
    have hhistory : v'.history = v.history := by
      rw [← heq]
    obtain ⟨hheap, hinterned⟩ := InternVm.majorGc_moves hstrings
    rw [← hnew] at hheap hinterned
    constructor
    · rw [hnew]
      exact h.strings.majorGc hstrings
    · rw [← heq]
      exact haddresses
    · intro c a ha
      rw [hmirror] at ha
      obtain ⟨b, hb, rfl⟩ := map_eq_some_iff.mp ha
      obtain ⟨id, hid⟩ := h.mirrors c b hb
      exact ⟨id, hmoved hid (hmirrors _ (mem_of_get hb))⟩
    · intro e c hc
      rw [hinfo] at hc
      exact h.classdesc e c hc
    · intro e a ha
      rw [hinfo] at ha ⊢
      obtain ⟨b, hb, rfl⟩ := map_eq_some_iff.mp ha
      obtain ⟨⟨o, ho⟩, hcached⟩ := h.cached e b hb
      refine ⟨⟨o, hmoved ho (LdcVm.info_live hinfos hb)⟩, ?_⟩
      intro hfailed
      rw [hmirror, hcached hfailed]
      rfl
    · intro e a ha
      rw [hliteral] at ha
      obtain ⟨b, hb, rfl⟩ := map_eq_some_iff.mp ha
      obtain ⟨o, ho, hchars, hentry⟩ := h.literals e b hb
      exact ⟨o, hheap ho (hliterals _ (mem_of_get hb)), hchars, hinterned hentry⟩
    · intro r hr x hx
      rw [hhistory] at hr
      obtain ⟨e, a, o, he, hxo, ha, ho⟩ := h.pushed r hr x hx
      refine ⟨e, relocate a, o, he, hxo, ?_, hmoved ho (hmirrors _ (mem_of_get ha))⟩
      rw [hmirror, ha]
      rfl
    · intro r hr o ho
      rw [hhistory] at hr
      obtain ⟨e, a, he, ha, hstring⟩ := h.pushedString r hr o ho
      refine ⟨e, relocateString a, he, ?_, hheap hstring (hliterals _ (mem_of_get ha))⟩
      rw [hliteral, ha]
      rfl
    · intro r hr hthrew
      rw [hhistory] at hr
      obtain ⟨e, he, htrue⟩ := h.failed r hr hthrew
      refine ⟨e, he, ?_⟩
      rw [hinfo]
      exact htrue
    · rw [hhistory]
      exact h.failures
  · cases hv

theorem withCalls (h : LdcInv P v) (calls : List LookupCall) :
    LdcInv P { v with calls := calls } :=
  { h with }

theorem ldcClass (h : LdcInv P v) {t e : ℕ} {links : Bool}
    (hok : LdcOk P v (.ldcClass t e links free)) (hv : v.ldcClass t e links free = some v') :
    LdcInv P v' := by
  obtain ⟨hfailed, hfits⟩ := hok
  unfold LdcVm.ldcClass at hv
  split at hv
  · rename_i a ha
    cases hv
    exact h.pushes t hfailed ((h.cached e a ha).2 hfailed)
  · rename_i hnull
    split at hv
    · rename_i c hc
      rw [h.classdesc e c hc] at hv
      apply h.pushMirror t hfailed (hfits hnull _) hv
      rw [hc]
      nofun
    · cases hv
      exact h.withCalls _

theorem found (h : LdcInv P v) {call : LookupCall} {links : Bool} (hok : call.ldc = true →
      (v.info call.entry).failed = false ∧ v.MirrorFits P call.entry links free)
    (hv : v.found P call links free = some v') : LdcInv P v' := by
  have hset : LdcInv P (v.setInfo call.entry
      { v.info call.entry with classdesc := some (P.named call.entry) }) := by
    apply h.setInfo
    · intro c hc
      exact (some.inj hc).symm
    · exact h.cached call.entry
    · intro htrue
      exact htrue
  unfold LdcVm.found at hv
  dsimp only at hv
  split at hv
  · rename_i hldc
    obtain ⟨hfailed, hfits⟩ := hok hldc
    apply hset.pushMirror call.thread _ hfits hv
    rw [LdcVm.info_setInfo, if_pos rfl]
    exact hfailed
  · cases hv
    exact hset

theorem notFound (h : LdcInv P v) {call : LookupCall} {exception : ℕ}
    (hv : v.notFound call exception = some v') : LdcInv P v' := by
  unfold LdcVm.notFound at hv
  split at hv
  · rename_i id ho
    dsimp only at hv
    have hset : LdcInv P (v.setInfo call.entry ⟨none, some exception, true⟩) := by
      apply h.setInfo
      · intro c hc
        cases hc
      · intro a ha
        cases ha
        exact ⟨⟨_, mem_of_get ho⟩, nofun⟩
      · intro _
        rfl
    cases hv
    split
    · apply hset.throws
      intro _
      refine ⟨call.entry, rfl, ?_⟩
      rw [LdcVm.info_setInfo, if_pos rfl]
    · exact hset
  · cases hv

/-- A step that meets the condition keeps the invariant. -/
theorem step (h : LdcInv P v) {e : LdcEvent} (hok : LdcOk P v e) (hv : ldcStep P v e = some v') :
    LdcInv P v' := by
  cases e with
  | ldcClass t e links free => exact h.ldcClass hok hv
  | resolveClass t e =>
    cases hv
    unfold LdcVm.resolveClass
    split
    · exact h.withCalls _
    · exact h
  | lookupDone exception links free =>
    replace hv : v.lookupDone P exception links free = some v' := hv
    unfold LdcVm.lookupDone at hv
    split at hv
    · cases hv
    · rename_i call rest hcalls
      cases exception with
      | none =>
        apply (h.withCalls rest).found _ hv
        have hhead : call ∈ v.calls.head? := by
          rw [hcalls]
          rfl
        exact hok call hhead
      | some a => exact (h.withCalls rest).notFound hv
  | getClassMirror c free =>
    obtain ⟨⟨r, w⟩, hr, rfl⟩ := map_eq_some_iff.mp hv
    exact (h.getClassMirror hr).1
  | throwable address => exact h.place hv
  | ldcString t e free => exact h.ldcString hok hv
  | strings e =>
    have hstrings (he : ∀ live relocate, e ≠ .majorGc live relocate)
        (hv : (internStep v.strings e).map (fun strings => { v with strings := strings }) =
          some v') : LdcInv P v' := by
      obtain ⟨strings, hstep, rfl⟩ := map_eq_some_iff.mp hv
      exact h.setStrings (h.strings.step hok hstep) (InternVm.step_keeps he hstep)
        (fun _ _ ha => ha) fun _ _ ha => Or.inl ha
    cases e with
    | create address string | internJString address
    | makeJString source address intern => exact hstrings nofun hv
    | majorGc live relocate => cases hv
  | majorGc liveString relocateString live relocate => exact h.majorGc hv

end LdcInv

/-- In every run in which no class constant is used after its resolution has failed, no mirror runs
out of memory, and no lookup confuses two strings, `ldc` is stable. -/
theorem ldc_right (P : LdcProgram) {v : LdcVm} (h : Runs (ldcStep P) (LdcOk P) .start v) :
    LdcRight P v := by
  have hinv : LdcInv P v := by
    apply h.invariant (LdcInv P) (.start P)
    intro u e w hu hok hstep
    exact hu.step hok hstep
  exact hinv.right

/-- The first class entry names the class 5, and the first string entry is `"AA"`. -/
def ldcExample : LdcProgram := ⟨fun _ => ⟨5, 0⟩, fun _ => [0x41, 0x41]⟩

def ldcOnce (mirror literal : ℕ) : LdcVm where
  strings := {
    heap := [(literal, ⟨0, doubleA⟩)]
    made := 1
    interned := [([0x41, 0x41], literal)]
    results := [⟨[0x41, 0x41], ⟨0, doubleA⟩, true⟩] }
  objects := [(mirror, ⟨0, .mirror ⟨5, 0⟩⟩)]
  made := 1
  mirrors := [(⟨5, 0⟩, mirror)]
  infos := [(0, ⟨some ⟨5, 0⟩, some mirror, false⟩)]
  literals := [(0, literal)]
  calls := []
  history := [⟨0, .string 0, .pushedString ⟨0, doubleA⟩⟩,
    ⟨0, .classInfo 0, .pushed (some ⟨0, .mirror ⟨5, 0⟩⟩)⟩]

/-- Two threads push a class and a string before and after a collection. -/
theorem ldc_right_twice :
    ∃ v, Runs (ldcStep ldcExample) (LdcOk ldcExample) .start v ∧ LdcRight ldcExample v ∧
      v.history.map (fun r => r.thread) = [1, 1, 0, 0] := by
  have hlookup : Runs (ldcStep ldcExample) (LdcOk ldcExample) .start
      { LdcVm.start with calls := [⟨0, 0, true⟩] } := by
    apply Runs.refl.tail (a := .ldcClass 0 0 true [])
    · exact ⟨rfl, fun _ hsome => absurd rfl hsome⟩
    · rfl
  have hclass : Runs (ldcStep ldcExample) (LdcOk ldcExample) .start
      { ldcOnce 8 0 with
        strings := .start
        literals := []
        history := [⟨0, .classInfo 0, .pushed (some ⟨0, .mirror ⟨5, 0⟩⟩)⟩] } := by
    apply hlookup.tail (a := .lookupDone none true [8])
    · intro call hcall _
      cases hcall
      exact ⟨rfl, fun _ _ => cons_ne_nil _ _⟩
    · decide
  have hstring : Runs (ldcStep ldcExample) (LdcOk ldcExample) .start (ldcOnce 8 40) := by
    apply hclass.tail (a := .ldcString 0 0 (some 40))
    · intro _ string _ entry hentry
      exact absurd hentry not_mem_nil
    · decide
  have hmoved : Runs (ldcStep ldcExample) (LdcOk ldcExample) .start (ldcOnce 4 20) := by
    apply hstring.tail (a := .majorGc (fun _ => true) (· / 2) (fun _ => true) (· / 2))
    · trivial
    · decide
  have hagain : Runs (ldcStep ldcExample) (LdcOk ldcExample) .start
      { ldcOnce 4 20 with
        history := ⟨1, .classInfo 0, .pushed (some ⟨0, .mirror ⟨5, 0⟩⟩)⟩ ::
          (ldcOnce 4 20).history } := by
    apply hmoved.tail (a := .ldcClass 1 0 true [])
    · exact ⟨rfl, nofun⟩
    · decide
  have hboth := hagain.tail (a := .ldcString 1 0 none) (by trivial) rfl
  exact ⟨_, hboth, ldc_right ldcExample hboth, by decide⟩

/-- The class cannot be loaded: the first execution throws, and the second pushes the exception. -/
theorem ldc_pushes_exception :
    ∃ v, run (ldcStep ldcExample) .start [.ldcClass 0 0 true [], .throwable 8,
        .lookupDone (some 8) true [], .ldcClass 0 0 true []] = some v ∧
      v.history.map LdcRecord.result = [.pushed (some ⟨0, .exception⟩), .threw true] ∧
      ¬ LdcRight ldcExample v := by
  refine ⟨{
      strings := .start
      objects := [(8, ⟨0, .exception⟩)]
      made := 1
      mirrors := []
      infos := [(0, ⟨none, some 8, true⟩)]
      literals := []
      calls := []
      history := [⟨0, .classInfo 0, .pushed (some ⟨0, .exception⟩)⟩,
        ⟨0, .classInfo 0, .threw true⟩] }, by decide, by decide, ?_⟩
  intro h
  obtain ⟨e, id, -, heq⟩ := h.mirror _ mem_cons_self _ rfl
  cases heq

end TraceJvm
