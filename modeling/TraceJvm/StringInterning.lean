import TraceJvm.Lib.OrderedMap
import TraceJvm.Lib.Transition
import TraceJvm.ModifiedUtf8

/-! The table of interned strings. It is keyed by the bytes of the array of a string, its values are
roots of the collector, and nothing is ever removed from it. -/
namespace TraceJvm

open Transition List OrderedMap

structure StringObject where
  id : ℕ
  string : JString
  deriving DecidableEq

structure InternResult where
  asked : List UInt16
  returned : StringObject
  /-- Whether the call interns. -/
  interns : Bool
  deriving DecidableEq

structure InternVm where
  /-- The strings in the heap by their addresses. -/
  heap : List (ℕ × StringObject)
  /-- The number of strings that were ever created. -/
  made : ℕ
  /-- `interned_strings` -/
  interned : List (List UInt8 × ℕ)
  results : List InternResult
  deriving DecidableEq

def InternVm.start : InternVm := ⟨[], 0, [], []⟩

/-- What `MakeJStringFromModifiedUTF8` and `MakeJStringFromCString` take. -/
inductive StringSource where
  | modifiedUtf8 (data : List UInt8)
  | cString (data : List UInt8)

/-- `make_jstring_modified_utf8` and `make_jstring_cstr`. -/
def StringSource.string : StringSource → Option JString
  | .modifiedUtf8 data => (convertModifiedUtf8ToChars data).map .ofUnits
  | .cString data => some ⟨⟨data, .latin1⟩, nofun⟩

/-- `ldc` of a string is `makeJString` of its modified UTF-8 with interning. -/
inductive InternEvent where
  /-- The program, or `MakeJStringFromData`, creates a string. -/
  | create (address : ℕ) (string : JString)
  | internJString (address : ℕ)
  | makeJString (source : StringSource) (address : ℕ) (intern : Bool)
  | majorGc (live : ℕ → Bool) (relocate : ℕ → ℕ)

namespace InternVm

def place (v : InternVm) (address : ℕ) (string : JString) : Option InternVm :=
  match get v.heap address with
  | some _ => none
  | none => some { v with
      heap := (address, ⟨v.made, string⟩) :: v.heap
      made := v.made + 1 }

/-- `lookup_interned_jstring` -/
def lookupInterned (v : InternVm) (string : JString) : Option ℕ :=
  get v.interned string.value

/-- `insert_interned_jstring` -/
def insertInterned (v : InternVm) (string : JString) (address : ℕ) : InternVm :=
  { v with interned := set v.interned string.value address }

def answer (v : InternVm) (asked : JString) (interns : Bool) (address : ℕ) : Option InternVm :=
  (get v.heap address).map fun o =>
    { v with results := ⟨asked.chars, o, interns⟩ :: v.results }

/-- The end of the three functions: the interned string, or else the object itself. -/
def lookup (v : InternVm) (string : JString) (address : ℕ) (intern : Bool) : Option InternVm :=
  match v.lookupInterned string with
  | some r => v.answer string intern r
  | none =>
    (if intern then v.insertInterned string address else v).answer string intern address

/-- A collection keeps the strings of the table and updates their addresses in it. -/
def majorGc (v : InternVm) (live : ℕ → Bool) (relocate : ℕ → ℕ) : Option InternVm :=
  let heap := (v.heap.filter fun p => live p.1).map fun p => (relocate p.1, p.2)
  if (heap.map Prod.fst).Nodup ∧ ∀ e ∈ v.interned, live e.2 then
    some { v with heap := heap, interned := v.interned.map fun e => (e.1, relocate e.2) }
  else none

end InternVm

def internStep (v : InternVm) : InternEvent → Option InternVm
  | .create address string => v.place address string
  | .internJString address =>
    (get v.heap address).bind fun o => v.lookup o.string address true
  | .makeJString source address intern =>
    match source.string with
    | none => some v
    | some string => (v.place address string).bind fun v' => v'.lookup string address intern
  | .majorGc live relocate => v.majorGc live relocate

def InternEvent.looksUp (v : InternVm) : InternEvent → Option JString
  | .internJString address => (get v.heap address).map StringObject.string
  | .makeJString source _ _ => source.string
  | _ => none

/-- No interned string has the bytes of the string that is looked up without having its characters,
or the other way round. -/
def Unconfused (v : InternVm) (e : InternEvent) : Prop :=
  ∀ string ∈ e.looksUp v, ∀ entry ∈ v.interned, ∀ o ∈ get v.heap entry.2,
    (o.string.value = string.value ↔ o.string.chars = string.chars)

structure InternedRight (v : InternVm) : Prop where
  contents : ∀ r ∈ v.results, r.returned.string.chars = r.asked
  identity : ∀ r ∈ v.results, ∀ r' ∈ v.results, r.interns = true → r'.interns = true →
    (r.returned.id = r'.returned.id ↔ r.asked = r'.asked)

/-- The invariant: addresses and numbers belong to one string each, an entry of the table is kept
under the bytes of its string, and what an interning call has returned is in the table. -/
structure InternInv (v : InternVm) : Prop where
  addresses : (v.heap.map Prod.fst).Nodup
  ids : (v.heap.map fun p => p.2.id).Nodup
  made : ∀ p ∈ v.heap, p.2.id < v.made
  keys : (v.interned.map Prod.fst).Nodup
  entries : ∀ e ∈ v.interned, ∃ o, (e.2, o) ∈ v.heap ∧ o.string.value = e.1
  apart : ∀ e ∈ v.interned, ∀ e' ∈ v.interned, ∀ o o', (e.2, o) ∈ v.heap → (e'.2, o') ∈ v.heap →
    o.string.chars = o'.string.chars → e.1 = e'.1
  contents : ∀ r ∈ v.results, r.returned.string.chars = r.asked
  returned : ∀ r ∈ v.results, r.interns = true →
    ∃ a, (r.returned.string.value, a) ∈ v.interned ∧ (a, r.returned) ∈ v.heap

namespace InternInv

variable {v v' : InternVm}

theorem start : InternInv .start where
  addresses := nodup_nil
  ids := nodup_nil
  made _ hp := absurd hp not_mem_nil
  keys := nodup_nil
  entries _ he := absurd he not_mem_nil
  apart _ he := absurd he not_mem_nil
  contents _ hr := absurd hr not_mem_nil
  returned _ hr := absurd hr not_mem_nil

theorem object_unique (h : InternInv v) {a : ℕ} {o o' : StringObject} (ho : (a, o) ∈ v.heap)
    (ho' : (a, o') ∈ v.heap) : o = o' := by
  have hget := get_of_mem h.addresses ho
  rw [get_of_mem h.addresses ho'] at hget
  exact (Option.some.inj hget).symm

theorem entry_unique (h : InternInv v) {k : List UInt8} {a a' : ℕ} (ha : (k, a) ∈ v.interned)
    (ha' : (k, a') ∈ v.interned) : a = a' := by
  have hget := get_of_mem h.keys ha
  rw [get_of_mem h.keys ha'] at hget
  exact (Option.some.inj hget).symm

theorem id_unique (h : InternInv v) {a a' : ℕ} {o o' : StringObject} (ho : (a, o) ∈ v.heap)
    (ho' : (a', o') ∈ v.heap) (hid : o.id = o'.id) : o = o' := by
  have heq := inj_on_of_nodup_map h.ids ho ho' hid
  exact (Prod.mk.inj heq).2

theorem right (h : InternInv v) : InternedRight v where
  contents := h.contents
  identity := by
    intro r hr r' hr' hi hi'
    obtain ⟨a, hentry, hheap⟩ := h.returned r hr hi
    obtain ⟨a', hentry', hheap'⟩ := h.returned r' hr' hi'
    rw [← h.contents r hr, ← h.contents r' hr']
    constructor
    · intro hid
      rw [h.id_unique hheap hheap' hid]
    · intro hchars
      have hkey := h.apart _ hentry _ hentry' _ _ hheap hheap' hchars
      dsimp only at hkey
      rw [hkey] at hentry
      obtain rfl := h.entry_unique hentry hentry'
      rw [h.object_unique hheap hheap']

theorem place (h : InternInv v) {address : ℕ} {string : JString}
    (hv : v.place address string = some v') : InternInv v' := by
  unfold InternVm.place at hv
  split at hv
  · cases hv
  · rename_i hfree
    cases hv
    have hnew : ∀ p ∈ v.heap, p.1 ≠ address := get_eq_none.mp hfree
    have hkeep {a : ℕ} {o : StringObject} (ha : a ≠ address)
        (ho : (a, o) ∈ (address, (⟨v.made, string⟩ : StringObject)) :: v.heap) :
        (a, o) ∈ v.heap := by
      rcases mem_cons.mp ho with heq | hmem
      · exact absurd (Prod.mk.inj heq).1 ha
      · exact hmem
    have hentry {e : List UInt8 × ℕ} (he : e ∈ v.interned) : e.2 ≠ address := by
      obtain ⟨o, ho, -⟩ := h.entries e he
      exact hnew _ ho
    constructor
    · rw [map_cons, nodup_cons]
      refine ⟨?_, h.addresses⟩
      intro hmem
      obtain ⟨p, hp, heq⟩ := mem_map.mp hmem
      exact hnew p hp heq
    · rw [map_cons, nodup_cons]
      refine ⟨?_, h.ids⟩
      intro hmem
      obtain ⟨p, hp, heq⟩ := mem_map.mp hmem
      have hlt := h.made p hp
      dsimp only at heq
      omega
    · intro p hp
      rcases mem_cons.mp hp with rfl | hmem
      · exact Nat.lt_succ_self _
      · exact Nat.lt_succ_of_lt (h.made p hmem)
    · exact h.keys
    · intro e he
      obtain ⟨o, ho, hvalue⟩ := h.entries e he
      exact ⟨o, mem_cons_of_mem _ ho, hvalue⟩
    · intro e he e' he' o o' ho ho'
      exact h.apart e he e' he' o o' (hkeep (hentry he) ho) (hkeep (hentry he') ho')
    · exact h.contents
    · intro r hr hi
      obtain ⟨a, ha, ho⟩ := h.returned r hr hi
      exact ⟨a, ha, mem_cons_of_mem _ ho⟩

theorem answer (h : InternInv v) {asked : JString} {interns : Bool} {address : ℕ}
    (hv : v.answer asked interns address = some v')
    (hchars : ∀ o, (address, o) ∈ v.heap → o.string.chars = asked.chars ∧
      (interns = true → (o.string.value, address) ∈ v.interned)) : InternInv v' := by
  obtain ⟨o, ho, rfl⟩ := Option.map_eq_some_iff.mp hv
  have hmem := mem_of_get ho
  obtain ⟨hsame, hentry⟩ := hchars o hmem
  refine { h with contents := ?_, returned := ?_ }
  · intro r hr
    rcases mem_cons.mp hr with rfl | hr
    · exact hsame
    · exact h.contents r hr
  · intro r hr hi
    rcases mem_cons.mp hr with rfl | hr
    · exact ⟨address, hentry hi, hmem⟩
    · exact h.returned r hr hi

/-- The string at a free key, whose characters no interned string has, is added. -/
theorem insertInterned (h : InternInv v) {a : ℕ} {o : StringObject} (ho : (a, o) ∈ v.heap)
    (hfree : v.lookupInterned o.string = none)
    (hnew : ∀ e ∈ v.interned, ∀ t, (e.2, t) ∈ v.heap → t.string.chars ≠ o.string.chars) :
    InternInv (v.insertInterned o.string a) := by
  have hset : (v.insertInterned o.string a).interned = v.interned ++ [(o.string.value, a)] :=
    set_of_get_none a hfree
  have hcases {e : List UInt8 × ℕ} (he : e ∈ v.interned ++ [(o.string.value, a)]) :
      e ∈ v.interned ∨ e = (o.string.value, a) := by
    simpa using he
  refine { addresses := h.addresses, ids := h.ids, made := h.made, contents := h.contents,
           keys := ?_, entries := ?_, apart := ?_, returned := ?_ }
  · rw [hset, map_append, nodup_append]
    refine ⟨h.keys, by simp, ?_⟩
    intro k hk k' hk'
    obtain ⟨e, he, rfl⟩ := mem_map.mp hk
    obtain rfl := mem_singleton.mp hk'
    exact get_eq_none.mp hfree e he
  · rw [hset]
    intro e he
    rcases hcases he with he | rfl
    · exact h.entries e he
    · exact ⟨o, ho, rfl⟩
  · rw [hset]
    intro e he e' he' t t' ht ht' hchars
    rcases hcases he with he | rfl
    · rcases hcases he' with he' | rfl
      · exact h.apart e he e' he' t t' ht ht' hchars
      · obtain rfl := h.object_unique ho ht'
        exact absurd hchars (hnew e he t ht)
    · obtain rfl := h.object_unique ho ht
      rcases hcases he' with he' | rfl
      · exact absurd hchars.symm (hnew e' he' t' ht')
      · rfl
  · rw [hset]
    intro r hr hi
    obtain ⟨b, hb, hheap⟩ := h.returned r hr hi
    exact ⟨b, mem_append_left _ hb, hheap⟩

theorem lookup (h : InternInv v) {a : ℕ} {o : StringObject} {intern : Bool}
    (ho : (a, o) ∈ v.heap)
    (hok : ∀ e ∈ v.interned, ∀ t, (e.2, t) ∈ v.heap →
      (t.string.value = o.string.value ↔ t.string.chars = o.string.chars))
    (hv : v.lookup o.string a intern = some v') : InternInv v' := by
  unfold InternVm.lookup at hv
  cases hfind : v.lookupInterned o.string with
  | some r =>
    simp only [hfind] at hv
    have hentry : (o.string.value, r) ∈ v.interned := mem_of_get hfind
    apply h.answer hv
    intro t ht
    obtain ⟨t', ht', hvalue⟩ := h.entries _ hentry
    obtain rfl := h.object_unique ht ht'
    refine ⟨(hok _ hentry t ht).mp hvalue, ?_⟩
    intro _
    rw [hvalue]
    exact hentry
  | none =>
    simp only [hfind] at hv
    have hsame {t : StringObject} (ht : (a, t) ∈ v.heap) : t = o := h.object_unique ht ho
    cases intern with
    | false =>
      apply h.answer hv
      intro t ht
      rw [hsame ht]
      exact ⟨rfl, fun h => by cases h⟩
    | true =>
      have hnew : ∀ e ∈ v.interned, ∀ t, (e.2, t) ∈ v.heap → t.string.chars ≠ o.string.chars := by
        intro e he t ht hchars
        obtain ⟨t', ht', hvalue⟩ := h.entries e he
        obtain rfl := h.object_unique ht ht'
        have hkey := (hok e he t ht).mpr hchars
        exact get_eq_none.mp hfind e he (hvalue.symm.trans hkey)
      apply (h.insertInterned ho hfind hnew).answer hv
      intro t ht
      rw [hsame ht]
      refine ⟨rfl, fun _ => ?_⟩
      exact mem_of_get (get_set_self _ _ _)

theorem majorGc (h : InternInv v) {live : ℕ → Bool} {relocate : ℕ → ℕ}
    (hv : v.majorGc live relocate = some v') : InternInv v' := by
  unfold InternVm.majorGc at hv
  dsimp only at hv
  split at hv
  · rename_i hvalid
    cases hv
    obtain ⟨haddresses, hlive⟩ := hvalid
    have hmoved {a : ℕ} {o : StringObject} (ho : (a, o) ∈ v.heap) (ha : live a = true) :
        (relocate a, o) ∈ (v.heap.filter fun p => live p.1).map fun p => (relocate p.1, p.2) :=
      mem_map.mpr ⟨(a, o), mem_filter.mpr ⟨ho, ha⟩, rfl⟩
    -- the object at a new address is the one that was at the old address
    have hback {a : ℕ} {o t : StringObject} (hold : (a, t) ∈ v.heap) (ha : live a = true)
        (ho : (relocate a, o) ∈
          (v.heap.filter fun p => live p.1).map fun p => (relocate p.1, p.2)) : o = t := by
      have hget := get_of_mem haddresses ho
      rw [get_of_mem haddresses (hmoved hold ha)] at hget
      exact (Option.some.inj hget).symm
    constructor
    · exact haddresses
    · rw [map_map]
      exact h.ids.sublist (filter_sublist.map _)
    · intro p hp
      obtain ⟨q, hq, rfl⟩ := mem_map.mp hp
      exact h.made q (mem_filter.mp hq).1
    · rw [map_map]
      exact h.keys
    · intro e he
      obtain ⟨e₀, he₀, rfl⟩ := mem_map.mp he
      obtain ⟨o, ho, hvalue⟩ := h.entries e₀ he₀
      exact ⟨o, hmoved ho (hlive e₀ he₀), hvalue⟩
    · intro e he e' he' o o' ho ho' hchars
      obtain ⟨e₀, he₀, rfl⟩ := mem_map.mp he
      obtain ⟨e₁, he₁, rfl⟩ := mem_map.mp he'
      obtain ⟨t, ht, -⟩ := h.entries e₀ he₀
      obtain ⟨t', ht', -⟩ := h.entries e₁ he₁
      obtain rfl := hback ht (hlive e₀ he₀) ho
      obtain rfl := hback ht' (hlive e₁ he₁) ho'
      exact h.apart e₀ he₀ e₁ he₁ _ _ ht ht' hchars
    · exact h.contents
    · intro r hr hi
      obtain ⟨a, ha, ho⟩ := h.returned r hr hi
      exact ⟨relocate a, mem_map.mpr ⟨_, ha, rfl⟩, hmoved ho (hlive _ ha)⟩
  · cases hv

theorem step (h : InternInv v) {e : InternEvent} (hok : Unconfused v e)
    (hv : internStep v e = some v') : InternInv v' := by
  cases e with
  | create address string => exact h.place hv
  | internJString address =>
    obtain ⟨o, ho, hlookup⟩ := Option.bind_eq_some_iff.mp hv
    apply h.lookup (mem_of_get ho) _ hlookup
    intro entry hentry t ht
    have hlooks : o.string ∈ InternEvent.looksUp v (.internJString address) := by
      show (get v.heap address).map StringObject.string = some o.string
      rw [ho]
      rfl
    exact hok _ hlooks entry hentry t (get_of_mem h.addresses ht)
  | makeJString source address intern =>
    unfold internStep at hv
    cases hsource : source.string with
    | none =>
      simp only [hsource] at hv
      cases hv
      exact h
    | some string =>
      simp only [hsource] at hv
      obtain ⟨w, hw, hlookup⟩ := Option.bind_eq_some_iff.mp hv
      have hplaced := h.place hw
      have hinterned : w.interned = v.interned := by
        unfold InternVm.place at hw
        split at hw
        · cases hw
        · cases hw
          rfl
      have hnew : (address, ⟨v.made, string⟩) ∈ w.heap ∧
          ∀ a t, (a, t) ∈ v.heap → (a, t) ∈ w.heap := by
        unfold InternVm.place at hw
        split at hw
        · cases hw
        · cases hw
          exact ⟨mem_cons_self, fun a t ht => mem_cons_of_mem _ ht⟩
      apply hplaced.lookup (o := ⟨v.made, string⟩) hnew.1 _ hlookup
      intro entry hentry t ht
      rw [hinterned] at hentry
      obtain ⟨t', ht', -⟩ := h.entries entry hentry
      obtain rfl := hplaced.object_unique ht (hnew.2 _ _ ht')
      exact hok string hsource entry hentry t (get_of_mem h.addresses ht')
  | majorGc live relocate => exact h.majorGc hv

end InternInv

/-- In every run in which no call looks up a string that is confused with an interned one, every
returned string has the characters that were asked for, and two interning calls return the same
object exactly if they asked for the same characters. -/
theorem interned_right {v : InternVm} (h : Runs internStep Unconfused .start v) :
    InternedRight v := by
  have hinv : InternInv v := by
    apply h.invariant InternInv .start
    intro u e w hu hok hstep
    exact hu.step hok hstep
  exact hinv.right

/-- `"AA"` in the compact form. -/
def doubleA : JString := ⟨⟨[0x41, 0x41], .latin1⟩, nofun⟩

/-- The heap after `"AA"` was interned and copied. -/
def copiedA : InternVm where
  heap := [(24, ⟨1, doubleA⟩), (8, ⟨0, doubleA⟩)]
  made := 2
  interned := [([0x41, 0x41], 8)]
  results := [⟨[0x41, 0x41], ⟨0, doubleA⟩, true⟩]

/-- A copy of `"AA"` is moved by a collection and interned. -/
theorem interned_right_copy :
    ∃ v, Runs internStep Unconfused .start v ∧ InternedRight v ∧
      v.results.map (fun r => (r.asked, r.returned.id)) =
        [([0x41, 0x41], 0), ([0x41, 0x41], 0)] := by
  have hcopied : Runs internStep Unconfused .start copiedA := by
    have hfirst : Unconfused .start (.makeJString (.modifiedUtf8 [0x41, 0x41]) 8 true) := by
      intro string _ entry hentry
      exact absurd hentry not_mem_nil
    have hcreate (v : InternVm) : Unconfused v (.create 24 doubleA) := by
      intro string hstring
      cases hstring
    exact (Runs.refl.tail hfirst rfl).tail (hcreate _) (by decide)
  have hmoved : Runs internStep Unconfused .start
      { copiedA with
        heap := [(12, ⟨1, doubleA⟩), (4, ⟨0, doubleA⟩)]
        interned := [([0x41, 0x41], 4)] } := by
    apply hcopied.tail (a := .majorGc (fun _ => true) (· / 2))
    · intro string hstring
      cases hstring
    · decide
  have hinterned := hmoved.tail (a := .internJString 12) (v := {
      heap := [(12, ⟨1, doubleA⟩), (4, ⟨0, doubleA⟩)]
      made := 2
      interned := [([0x41, 0x41], 4)]
      results := [⟨[0x41, 0x41], ⟨0, doubleA⟩, true⟩, ⟨[0x41, 0x41], ⟨0, doubleA⟩, true⟩] })
    (by
      intro string hstring entry hentry o ho
      cases hstring
      obtain rfl := mem_singleton.mp hentry
      cases ho
      exact iff_of_true rfl rfl)
    (by decide)
  exact ⟨_, hinterned, interned_right hinterned, by decide⟩

/-- `"\u4141"` is UTF-16 coded, and its bytes are those of `"AA"`. -/
theorem interned_confused :
    ∃ v, run internStep .start [.makeJString (.modifiedUtf8 [0x41, 0x41]) 8 true,
        .makeJString (.modifiedUtf8 [0xE4, 0x85, 0x81]) 16 true] = some v ∧
      v.results.map (fun r => (r.asked, r.returned.string.chars)) =
        [([0x4141], [0x41, 0x41]), ([0x41, 0x41], [0x41, 0x41])] ∧ ¬ InternedRight v := by
  refine ⟨{
      heap := [(16, ⟨1, .ofUnits [0x4141]⟩), (8, ⟨0, doubleA⟩)]
      made := 2
      interned := [([0x41, 0x41], 8)]
      results := [⟨[0x4141], ⟨0, doubleA⟩, true⟩, ⟨[0x41, 0x41], ⟨0, doubleA⟩, true⟩] },
    by decide, by decide, ?_⟩
  intro h
  have hcontents := h.contents ⟨[0x4141], ⟨0, doubleA⟩, true⟩ mem_cons_self
  revert hcontents
  decide

end TraceJvm
