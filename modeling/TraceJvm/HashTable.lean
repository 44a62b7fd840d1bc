import Mathlib.Data.Finmap

/-! The string hash table: its buckets with their inline entries, the iterator, the operations with
the rehashes that they start, and the finite map that they refine. -/
namespace TraceJvm

open Finmap Multiset

/-- A `hash_table_entry`; the key `nullptr` is `none`. -/
structure HashTableEntry (V : Type) where
  key : Option (List UInt8)
  data : V

abbrev HashChain (V : Type) := List (HashTableEntry V)

/-- A key with its value. -/
abbrev HashPair (V : Type) := Σ _ : List UInt8, V

/-- The uses of the double `load_factor`: the test of `hash_table_insert_impl` on `entries_count` and
`entries_cap`, and the product of `hash_table_reserve`. -/
structure LoadFactor where
  reached : ℕ → ℕ → Bool
  scaled : ℕ → ℕ

/-- Each element of `entries` stands with its chain: the inline entry, then those after `next`. -/
structure StringHashTable (V : Type) where
  entries : List (HashChain V)
  entries_count : ℕ
  load_factor : LoadFactor

/-- The entry that `find_hash_table_entry` stops at; `on_chain` is that some are `before` it. -/
structure FoundEntry (V : Type) where
  equal : Bool
  before : HashChain V
  ent : HashTableEntry V
  after : HashChain V

structure HashTableIterator (V : Type) where
  /-- The chain from `current` on, empty at `end`. -/
  current : HashChain V
  /-- The elements after `current_base`. -/
  bases : List (HashChain V)

def fxhashWord (hash : UInt64) (bytes : List UInt8) : UInt64 :=
  let word := bytes.foldr (fun byte (word : UInt64) => word <<< 8 ||| byte.toUInt64) 0
  ((hash <<< 5 ||| hash >>> 59) ^^^ word) * 0x517cc1b727220a95

def fxhashString (key : List UInt8) : ℕ :=
  ((key.toChunks 8).foldl fxhashWord 0).toUInt32.toNat

variable {V : Type} (null : V)

def makeHashTable (load_factor : LoadFactor) (initial_capacity : ℕ) : StringHashTable V :=
  ⟨.replicate initial_capacity [⟨none, null⟩], 0, load_factor⟩

/-- The `while` loop that looks for a non-null key. -/
def skipEmpty : List (HashChain V) → HashTableIterator V
  | [] => ⟨[], []⟩
  | base :: bases => if (base.head?.bind (·.key)).isSome then ⟨base, bases⟩ else skipEmpty bases

def hashTableIteratorNext (iter : HashTableIterator V) : HashTableIterator V :=
  match iter.current with
  | _ :: ent :: chain => ⟨ent :: chain, iter.bases⟩
  | _ => skipEmpty iter.bases

def HashTableIterator.size (iter : HashTableIterator V) : ℕ :=
  iter.current.length + iter.bases.flatten.length

theorem skipEmpty_size (bases : List (HashChain V)) :
    (skipEmpty bases).size ≤ bases.flatten.length := by
  induction bases with
  | nil => rfl
  | cons base bases ih =>
    rw [skipEmpty, List.flatten_cons, List.length_append]
    split
    · rfl
    · omega

/-- The entries of a loop over `hash_table_iterator_has_next` and `hash_table_iterator_next`. -/
def visited (iter : HashTableIterator V) : HashChain V :=
  match h : iter.current with
  | [] => []
  | ent :: chain => ent :: visited (hashTableIteratorNext iter)
termination_by iter.size
decreasing_by
  unfold hashTableIteratorNext
  rw [h]
  cases chain with
  | nil =>
    have := skipEmpty_size iter.bases
    simp only [HashTableIterator.size, h, List.length_singleton] at this ⊢
    omega
  | cons => simp [HashTableIterator.size, h]

def walkChain (key : List UInt8) (before : HashChain V) :
    HashChain V → Option (FoundEntry V)
  | [] => none
  | ent :: after =>
    if ent.key = some key then some ⟨true, before, ent, after⟩
    else if after.isEmpty then some ⟨false, before, ent, after⟩
    else walkChain key (before ++ [ent]) after

namespace StringHashTable

variable (tbl : StringHashTable V) (key : List UInt8)

def index : ℕ := fxhashString key % tbl.entries.length

/-- `none` is the entry `nullptr` of a table without capacity, with `equal` unset. -/
def findHashTableEntry : Option (FoundEntry V) :=
  tbl.entries[tbl.index key]?.bind (walkChain key [])

/-- The table with another chain where `key` belongs. -/
def withBucket (b : HashChain V) (entries_count : ℕ) : StringHashTable V :=
  { tbl with entries := tbl.entries.set (tbl.index key) b, entries_count }

def hashTableLookup : Option V :=
  (tbl.findHashTableEntry key).map fun p => if p.equal then p.ent.data else null

def hashTableContains : Option Bool := (tbl.findHashTableEntry key).map (·.equal)

/-- The next entry of the chain moves into an inline one; a lone inline entry loses its key. -/
def hashTableDelete : Option (V × StringHashTable V) :=
  (tbl.findHashTableEntry key).map fun p =>
    if p.equal then
      (p.ent.data, tbl.withBucket key
        (match p.before ++ p.after with
          | [] => [{ p.ent with key := none }]
          | chain => chain) (tbl.entries_count - 1))
    else (null, tbl)

/-- `hash_table_insert_impl` after its test of the load. -/
def place (value : V) : Option (V × StringHashTable V) :=
  (tbl.findHashTableEntry key).map fun p =>
    if p.equal then
      (p.ent.data, tbl.withBucket key (p.before ++ ⟨p.ent.key, value⟩ :: p.after)
        tbl.entries_count)
    else
      (null, tbl.withBucket key
        (if p.before.isEmpty && p.ent.key.isNone then [⟨some key, value⟩]
          else p.before ++ [p.ent, ⟨some key, value⟩]) (tbl.entries_count + 1))

/-- `hash_table_insert_impl` over the rehash that it calls. -/
def insertImpl (rehash : StringHashTable V → ℕ → Option (StringHashTable V)) (value : V) :
    Option (V × StringHashTable V) := do
  let tbl' ← if tbl.load_factor.reached tbl.entries_count tbl.entries.length then
      rehash tbl (tbl.entries.length * 2)
    else some tbl
  tbl'.place null key value

/-- The insertions into the new table may rehash it in turn, to the depth of the first argument. -/
def hashTableRehash : ℕ → StringHashTable V → ℕ → Option (StringHashTable V)
  | 0, _, _ => none
  | depth + 1, tbl, new_capacity =>
    (visited (skipEmpty tbl.entries)).foldlM (fun new_table ent => do
      let key ← ent.key
      let r ← new_table.insertImpl null key (hashTableRehash depth) ent.data
      some r.2) (makeHashTable null tbl.load_factor new_capacity)

def hashTableInsert (value : V) : Option (V × StringHashTable V) :=
  tbl.insertImpl null key (hashTableRehash null (tbl.entries_count + 1)) value

def hashTableReserve (new_capacity : ℕ) : Option (StringHashTable V) :=
  tbl.hashTableRehash null (tbl.entries_count + 1) (tbl.load_factor.scaled new_capacity + 2)

end StringHashTable

inductive HashTableOp (V : Type)
  | insert (key : List UInt8) (value : V)
  | delete (key : List UInt8)
  | lookup (key : List UInt8)
  | contains (key : List UInt8)
  | reserve (new_capacity : ℕ)
  | iterate

/-- What an operation returns; an iteration, the keys and values it visits. -/
inductive HashTableReply (V : Type)
  | value (v : V)
  | found (equal : Bool)
  | reserved
  | entries (l : Multiset (Option (List UInt8) × V))

/-- A finite map from byte strings. -/
abbrev ByteMap (V : Type) := Finmap fun _ : List UInt8 => V

def HashTableOp.run (tbl : StringHashTable V) :
    HashTableOp V → Option (HashTableReply V × StringHashTable V)
  | insert key value => (tbl.hashTableInsert null key value).map fun r => (.value r.1, r.2)
  | delete key => (tbl.hashTableDelete null key).map fun r => (.value r.1, r.2)
  | lookup key => (tbl.hashTableLookup null key).map fun v => (.value v, tbl)
  | contains key => (tbl.hashTableContains key).map fun equal => (.found equal, tbl)
  | reserve n => (tbl.hashTableReserve null n).map fun tbl' => (.reserved, tbl')
  | iterate => some (.entries ((visited (skipEmpty tbl.entries)).map fun e => (e.key, e.data)), tbl)

/-- The operations on a finite map. -/
def HashTableOp.spec (f : ByteMap V) : HashTableOp V → HashTableReply V × ByteMap V
  | insert key value => (.value ((f.lookup key).getD null), f.insert key value)
  | delete key => (.value ((f.lookup key).getD null), f.erase key)
  | lookup key => (.value ((f.lookup key).getD null), f)
  | contains key => (.found (f.lookup key).isSome, f)
  | reserve _ => (.reserved, f)
  | iterate => (.entries (f.entries.map fun p => (some p.1, p.2)), f)

def runTable (tbl : StringHashTable V) :
    List (HashTableOp V) → Option (List (HashTableReply V) × StringHashTable V)
  | [] => some ([], tbl)
  | op :: ops => do
    let (reply, tbl') ← op.run null tbl
    let (replies, last) ← runTable tbl' ops
    some (reply :: replies, last)

def runMap (f : ByteMap V) : List (HashTableOp V) → List (HashTableReply V) × ByteMap V
  | [] => ([], f)
  | op :: ops =>
    ((op.spec null f).1 :: (runMap (op.spec null f).2 ops).1, (runMap (op.spec null f).2 ops).2)

/-- The keys of a chain with their values. -/
def pairsOf (b : HashChain V) : List (Σ _ : List UInt8, V) :=
  b.filterMap fun ent => ent.key.map fun key => ⟨key, ent.data⟩

/-- Only an inline entry without a chain has no key. -/
def Keyed (b : HashChain V) : Prop :=
  b ≠ [] ∧ (b.length = 1 ∨ ∀ ent ∈ b, ent.key.isSome)

structure Refines (tbl : StringHashTable V) (f : ByteMap V) : Prop where
  capacity : 0 < tbl.entries.length
  keyed : ∀ b ∈ tbl.entries, Keyed b
  placed : ∀ i b, tbl.entries[i]? = some b → ∀ p ∈ pairsOf b, tbl.index p.1 = i
  entries : f.entries = (tbl.entries.flatMap pairsOf : List _)
  count : tbl.entries_count = f.entries.card

section Maps

variable {f : ByteMap V} {k : List UInt8} {old : V} {s : Multiset (Σ _ : List UInt8, V)}

/-- A map with an entry is what the rest becomes by its insertion. -/
theorem eq_insert_of_entries (h : f.entries = ⟨k, old⟩ ::ₘ s) :
    ∃ g : ByteMap V, g.entries = s ∧ k ∉ g ∧ f = g.insert k old := by
  have hn := nodup_keys.mpr f.nodupKeys
  rw [h, keys_cons, nodup_cons] at hn
  refine ⟨⟨s, nodup_keys.mp hn.2⟩, rfl, hn.1, Finmap.ext ?_⟩
  rw [entries_insert_of_notMem (by exact hn.1), h]

theorem insert_entries (h : f.entries = ⟨k, old⟩ ::ₘ s) (v : V) :
    (f.insert k v).entries = ⟨k, v⟩ ::ₘ s := by
  obtain ⟨g, rfl, hk, rfl⟩ := eq_insert_of_entries h
  rw [insert_insert, entries_insert_of_notMem hk]

theorem erase_entries (h : f.entries = ⟨k, old⟩ ::ₘ s) : (f.erase k).entries = s := by
  obtain ⟨g, rfl, hk, rfl⟩ := eq_insert_of_entries h
  congr 1
  refine ext_lookup fun x => ?_
  rcases eq_or_ne x k with rfl | hx
  · rw [lookup_erase, lookup_eq_none.mpr hk]
  · rw [lookup_erase_ne hx, lookup_insert_of_ne _ hx]

end Maps

/-! ## Chains -/

section Chains

variable {b : HashChain V}

theorem mem_pairsOf {p : HashPair V} : p ∈ pairsOf b ↔ ⟨some p.1, p.2⟩ ∈ b := by
  simp only [pairsOf, List.mem_filterMap, Option.map_eq_some_iff]
  constructor
  · rintro ⟨⟨key, data⟩, hmem, k, rfl, rfl⟩
    exact hmem
  · exact fun h => ⟨_, h, _, rfl, rfl⟩

theorem pairsOf_append (a b : HashChain V) :
    pairsOf (a ++ b) = pairsOf a ++ pairsOf b := List.filterMap_append

theorem map_pairsOf (h : ∀ ent ∈ b, ent.key.isSome) :
    (pairsOf b).map (fun p => (some p.1, p.2)) = b.map fun ent => (ent.key, ent.data) := by
  induction b with
  | nil => rfl
  | cons ent b ih =>
    obtain ⟨⟨key⟩, data⟩ := ent
    · cases h _ (.head _)
    · exact congrArg _ (ih fun e he => h e (.tail _ he))

theorem cons_entries {ent : HashTableEntry V} {key : List UInt8} (hkey : ent.key = some key)
    (before after : HashChain V) (rest : Multiset (HashPair V)) :
    (pairsOf (before ++ ent :: after) : Multiset _) + rest =
      ⟨key, ent.data⟩ ::ₘ ((pairsOf (before ++ after) : Multiset _) + rest) := by
  have hcons : pairsOf (ent :: after) = ⟨key, ent.data⟩ :: pairsOf after := by simp [pairsOf, hkey]
  rw [pairsOf_append, pairsOf_append, hcons, ← cons_add, cons_coe,
    coe_eq_coe.mpr List.perm_middle]

/-- A chain that holds a keyed entry has a key in every entry. -/
theorem Keyed.all (h : Keyed b) {e : HashTableEntry V} (he : e ∈ b) (hkey : e.key.isSome) :
    ∀ ent ∈ b, ent.key.isSome := by
  rcases h.2 with hone | hall
  · obtain ⟨a, rfl⟩ := List.length_eq_one_iff.mp hone
    intro ent hent
    rwa [List.eq_of_mem_singleton hent, ← List.eq_of_mem_singleton he]
  · exact hall

theorem walkChain_spec (key : List UInt8) (hb : b ≠ []) (before : HashChain V) :
    ∃ p, walkChain key before b = some p ∧ before ++ b = p.before ++ p.ent :: p.after ∧
      if p.equal then p.ent.key = some key else p.after = [] ∧ ∀ ent ∈ b, ent.key ≠ some key := by
  induction b generalizing before with
  | nil => exact absurd rfl hb
  | cons ent after ih =>
    rw [walkChain]
    split
    · rename_i hkey
      exact ⟨_, rfl, rfl, hkey⟩
    · rename_i hkey
      cases after with
      | nil => exact ⟨_, rfl, rfl, rfl, by simpa using hkey⟩
      | cons next after =>
        obtain ⟨p, hp, happend, heq⟩ := ih nofun (before ++ [ent])
        refine ⟨p, hp, by rw [← happend, List.append_assoc]; rfl, ?_⟩
        split_ifs at heq ⊢
        · exact heq
        · exact ⟨heq.1, List.forall_mem_cons.mpr ⟨hkey, heq.2⟩⟩

end Chains

/-! ## The iterator -/

section Iterator

variable {bases : List (HashChain V)}

theorem visited_chain (ent : HashTableEntry V) (chain : HashChain V) :
    visited ⟨ent :: chain, bases⟩ = ent :: chain ++ visited (skipEmpty bases) := by
  induction chain generalizing ent with
  | nil =>
    rw [visited]
    rfl
  | cons next chain ih =>
    rw [visited, List.cons_append, ← ih next]
    rfl

/-- The iterator passes over the buckets without a key and visits the others whole. -/
theorem visited_skipEmpty (h : ∀ b ∈ bases, Keyed b) :
    pairsOf (visited (skipEmpty bases)) = bases.flatMap pairsOf ∧
      ∀ ent ∈ visited (skipEmpty bases), ent.key.isSome := by
  induction bases with
  | nil =>
    rw [skipEmpty, visited]
    exact ⟨rfl, nofun⟩
  | cons base bases ih =>
    obtain ⟨hpairs, hkeys⟩ := ih fun b hb => h b (.tail _ hb)
    have hbase := h base (.head _)
    obtain ⟨ent, chain, rfl⟩ := List.exists_cons_of_ne_nil hbase.1
    rw [skipEmpty, List.flatMap_cons, List.head?_cons, Option.bind_some]
    split
    · rename_i hkey
      rw [visited_chain, pairsOf_append, ← hpairs]
      exact ⟨rfl, fun e he => (List.mem_append.mp he).elim (hbase.all (.head _) hkey e) (hkeys e)⟩
    · rename_i hkey
      rcases hbase.2 with hone | hall
      · cases List.length_eq_zero_iff.mp (Nat.succ.inj hone)
        rw [Option.not_isSome_iff_eq_none] at hkey
        rw [hpairs]
        exact ⟨by simp [pairsOf, hkey], hkeys⟩
      · exact absurd (hall ent (.head _)) hkey

end Iterator

/-! ## The operations -/

/-- Where the walk of the bucket of `key` stops, and what the other buckets hold. -/
structure KeyFound (tbl : StringHashTable V) (f : ByteMap V) (key : List UInt8) (p : FoundEntry V)
    (rest : Multiset (HashPair V)) : Prop where
  found : tbl.findHashTableEntry key = some p
  bucket : tbl.entries[tbl.index key]? = some (p.before ++ p.ent :: p.after)
  keyed : Keyed (p.before ++ p.ent :: p.after)
  split : f.entries = (pairsOf (p.before ++ p.ent :: p.after) : Multiset _) + rest
  set : ∀ b, ((tbl.entries.set (tbl.index key) b).flatMap pairsOf : Multiset _) =
    (pairsOf b : Multiset _) + rest
  lookup : f.lookup key = if p.equal then some p.ent.data else none
  stop : if p.equal then p.ent.key = some key else p.after = []

namespace Refines

variable {tbl : StringHashTable V} {f g : ByteMap V} {key : List UInt8}

theorem make (load_factor : LoadFactor) {n : ℕ} (hn : 0 < n) :
    Refines (makeHashTable null load_factor n) ∅ where
  capacity := by simpa [makeHashTable] using hn
  keyed b hb := by
    cases List.eq_of_mem_replicate hb
    exact ⟨nofun, .inl rfl⟩
  placed i b hb p hp := by
    cases List.eq_of_mem_replicate (List.mem_of_getElem? hb)
    cases hp
  entries := by
    rw [List.flatMap_eq_nil_iff.mpr fun b hb => by cases List.eq_of_mem_replicate hb; rfl]
    rfl
  count := rfl

theorem index_lt (h : Refines tbl f) (key : List UInt8) : tbl.index key < tbl.entries.length :=
  Nat.mod_lt _ h.capacity

/-- What the other buckets hold has other keys. -/
theorem others (h : Refines tbl f) (key : List UInt8) : ∃ rest : Multiset (HashPair V),
    (∀ p ∈ rest, p.1 ≠ key) ∧
      ∀ b, ((tbl.entries.set (tbl.index key) b).flatMap pairsOf : Multiset _) =
        (pairsOf b : Multiset _) + rest := by
  refine ⟨↑((tbl.entries.take (tbl.index key)).flatMap pairsOf ++
    (tbl.entries.drop (tbl.index key + 1)).flatMap pairsOf), ?_, fun b => ?_⟩
  · rintro p hp rfl
    rw [mem_coe, List.mem_append, List.mem_flatMap, List.mem_flatMap] at hp
    obtain ⟨b, hmem, hpb⟩ | ⟨b, hmem, hpb⟩ := hp
    · obtain ⟨i, hlt, rfl⟩ := List.mem_take_iff_getElem.mp hmem
      have := h.placed i _ (List.getElem?_eq_getElem (by omega)) p hpb
      omega
    · obtain ⟨i, hlt, rfl⟩ := List.mem_drop_iff_getElem.mp hmem
      have := h.placed _ _ (List.getElem?_eq_getElem (by omega)) p hpb
      omega
  · rw [List.set_eq_take_append_cons_drop, if_pos (h.index_lt key), List.flatMap_append,
      List.flatMap_cons, coe_add, coe_eq_coe]
    exact List.perm_append_comm_assoc _ _ _

theorem find (h : Refines tbl f) (key : List UInt8) : ∃ p rest, KeyFound tbl f key p rest := by
  have hi := h.index_lt key
  have hb := List.getElem?_eq_getElem hi
  have hkeyed := h.keyed _ (List.getElem_mem hi)
  obtain ⟨rest, hrest, hset⟩ := h.others key
  obtain ⟨p, hp, happend, heq⟩ := walkChain_spec key hkeyed.1 []
  have hf := hset tbl.entries[tbl.index key]
  rw [List.set_getElem_self, ← h.entries] at hf
  have hfind : tbl.findHashTableEntry key = some p := by
    rw [StringHashTable.findHashTableEntry, hb, Option.bind_some, hp]
  rw [List.nil_append] at happend
  refine ⟨p, rest, hfind, happend ▸ hb, happend ▸ hkeyed, happend ▸ hf, hset, ?_, ?_⟩
  · split_ifs at heq ⊢
    · rw [lookup_eq_some_iff, hf, happend, cons_entries heq]
      exact mem_cons_self _ _
    · rw [Option.eq_none_iff_forall_ne_some]
      intro v hv
      rw [lookup_eq_some_iff, hf, mem_add, mem_coe, mem_pairsOf] at hv
      rcases hv with hv | hv
      · exact heq.2 _ hv rfl
      · exact hrest _ hv rfl
  · split_ifs at heq ⊢
    · exact heq
    · exact heq.1

/-- The bucket of a key is replaced, and the map changes as the bucket does. -/
theorem replace (h : Refines tbl f) {b b' : HashChain V}
    (hb : tbl.entries[tbl.index key]? = some b) (hkeyed : Keyed b')
    (hkeys : ∀ p ∈ pairsOf b', p.1 = key ∨ p ∈ pairsOf b)
    (hg : g.entries = ((tbl.entries.set (tbl.index key) b').flatMap pairsOf : List _)) {n : ℕ}
    (hn : n = g.entries.card) : Refines (tbl.withBucket key b' n) g where
  capacity := by simpa [StringHashTable.withBucket] using h.capacity
  keyed c hc := (List.mem_or_eq_of_mem_set hc).elim (h.keyed c) fun hc => hc ▸ hkeyed
  placed i c hc p hp := by
    have hidx : (tbl.withBucket key b' n).index p.1 = tbl.index p.1 := by
      simp [StringHashTable.index, StringHashTable.withBucket]
    rw [StringHashTable.withBucket, List.getElem?_set] at hc
    rw [hidx]
    split at hc
    · rename_i heq
      split at hc
      · cases hc
        rcases hkeys p hp with rfl | hp
        · exact heq
        · exact (h.placed _ b hb p hp).trans heq
      · cases hc
    · exact h.placed i c hc p hp
  entries := hg
  count := hn

theorem hashTableLookup (h : Refines tbl f) (key : List UInt8) :
    tbl.hashTableLookup null key = some ((f.lookup key).getD null) := by
  obtain ⟨p, rest, hp⟩ := h.find key
  rw [StringHashTable.hashTableLookup, hp.found, hp.lookup, Option.map_some]
  split <;> rfl

theorem hashTableContains (h : Refines tbl f) (key : List UInt8) :
    tbl.hashTableContains key = some (f.lookup key).isSome := by
  obtain ⟨p, rest, hp⟩ := h.find key
  rw [StringHashTable.hashTableContains, hp.found, hp.lookup, Option.map_some]
  cases p.equal <;> rfl

theorem hashTableDelete (h : Refines tbl f) (key : List UInt8) : ∃ tbl',
    tbl.hashTableDelete null key = some ((f.lookup key).getD null, tbl') ∧
      Refines tbl' (f.erase key) := by
  obtain ⟨p, rest, hp, hb, hkeyed, hf, hset, hlookup, heq⟩ := h.find key
  rw [StringHashTable.hashTableDelete, hp, hlookup, Option.map_some]
  split_ifs at heq hlookup ⊢
  · refine ⟨_, rfl, ?_⟩
    rw [cons_entries heq] at hf
    have hg := erase_entries hf
    have hcount : tbl.entries_count - 1 = (f.erase key).entries.card := by
      rw [h.count, hg, hf, card_cons, Nat.add_sub_cancel]
    split
    · rename_i hnil
      refine h.replace hb ⟨List.cons_ne_nil _ _, .inl rfl⟩ ?_ ?_ hcount
      · nofun
      · rw [hset, hg, hnil]
        rfl
    · rename_i hne
      have hsub : p.before ++ p.after ⊆ p.before ++ p.ent :: p.after :=
        ((List.sublist_cons_self ..).append_left _).subset
      have hall := hkeyed.all (e := p.ent) (by simp) (by simp [heq])
      refine h.replace hb ⟨hne, .inr fun ent hent => hall ent (hsub hent)⟩ (fun e he => .inr ?_)
        (by rw [hset, hg]) hcount
      rw [mem_pairsOf] at he ⊢
      exact hsub he
  · refine ⟨tbl, rfl, ?_⟩
    rwa [show f.erase key = f from ext_lookup fun x => ?_]
    rcases eq_or_ne x key with rfl | hx
    · rw [lookup_erase, hlookup]
    · rw [lookup_erase_ne hx]

theorem place (h : Refines tbl f) (key : List UInt8) (value : V) : ∃ tbl',
    tbl.place null key value = some ((f.lookup key).getD null, tbl') ∧
      Refines tbl' (f.insert key value) := by
  obtain ⟨p, rest, hp, hb, hkeyed, hf, hset, hlookup, heq⟩ := h.find key
  rw [StringHashTable.place, hp, hlookup, Option.map_some]
  split_ifs at heq hlookup ⊢ with _ hinline
  · refine ⟨_, rfl, ?_⟩
    have hall := hkeyed.all (e := p.ent) (by simp) (by simp [heq])
    rw [cons_entries heq] at hf
    have hg := insert_entries hf value
    refine h.replace hb ⟨by simp, .inr fun e he => ?_⟩ (fun e he => ?_) ?_ (by simp [h.count, hf, hg])
    · obtain he | he | he : e ∈ p.before ∨ e = _ ∨ e ∈ p.after := by simpa using he
      · exact hall e (by simp [he])
      · simp [he, heq]
      · exact hall e (by simp [he])
    · simp only [mem_pairsOf, List.mem_append, List.mem_cons, heq, HashTableEntry.mk.injEq,
        Option.some.injEq] at he ⊢
      tauto
    · have hent : (⟨p.ent.key, value⟩ : HashTableEntry V).key = some key := heq
      rw [hset, hg, cons_entries hent]
  all_goals
    refine ⟨_, rfl, ?_⟩
    have hg : (f.insert key value).entries = ⟨key, value⟩ ::ₘ f.entries :=
      entries_insert_of_notMem (lookup_eq_none.mp hlookup)
    have hn : tbl.entries_count + 1 = (f.insert key value).entries.card := by
      rw [hg, card_cons, h.count]
    rw [heq] at hb hkeyed hf
  · obtain ⟨hbefore, hkey⟩ : p.before = [] ∧ p.ent.key = none := by simpa using hinline
    refine h.replace hb ⟨List.cons_ne_nil _ _, .inl rfl⟩ (by simp +contextual [mem_pairsOf]) ?_ hn
    rw [hset, hg, hf]
    simp [pairsOf, hbefore, hkey]
  · have hall : ∀ ent ∈ p.before ++ [p.ent], ent.key.isSome := by
      rcases hkeyed.2 with hone | hall
      · have hnil : p.before = [] := by simpa using hone
        refine hkeyed.all (e := p.ent) (by simp) ?_
        simpa [hnil, Option.isSome_iff_ne_none] using hinline
      · exact hall
    refine h.replace hb ⟨by simp, .inr fun e he => ?_⟩ (fun e he => ?_) ?_ hn
    · obtain he | rfl : e ∈ p.before ++ [p.ent] ∨ e = _ := by simpa [or_assoc] using he
      · exact hall e he
      · rfl
    · simp only [mem_pairsOf, List.mem_append, List.mem_cons, HashTableEntry.mk.injEq,
        Option.some.injEq] at he ⊢
      tauto
    · have hent : (⟨some key, value⟩ : HashTableEntry V).key = some key := rfl
      rw [hset, hg, hf, List.append_cons p.before p.ent [_], cons_entries hent, List.append_nil]

/-- A rehash that refines is no more than a detour of the insertion. -/
theorem insertImpl (h : Refines tbl f) (key : List UInt8) (value : V)
    {rehash : StringHashTable V → ℕ → Option (StringHashTable V)}
    (hrehash : ∀ n, 0 < n → ∃ tbl', rehash tbl n = some tbl' ∧ Refines tbl' f) : ∃ tbl',
    tbl.insertImpl null key rehash value = some ((f.lookup key).getD null, tbl') ∧
      Refines tbl' (f.insert key value) := by
  obtain ⟨tbl₁, h₁, href⟩ := hrehash (tbl.entries.length * 2) (by have := h.capacity; omega)
  rw [StringHashTable.insertImpl]
  split
  · rw [h₁]
    exact href.place null key value
  · exact h.place null key value

/-- The entries of an iteration are inserted one by one. -/
theorem foldlM_insert {rehash : StringHashTable V → ℕ → Option (StringHashTable V)} {n : ℕ}
    (hrehash : ∀ {tbl f}, Refines tbl f → f.entries.card < n → ∀ m, 0 < m →
      ∃ tbl', rehash tbl m = some tbl' ∧ Refines tbl' f)
    {l : HashChain V} (hkeys : ∀ ent ∈ l, ent.key.isSome) (h : Refines tbl f)
    (hg : g.entries = (pairsOf l : Multiset _) + f.entries) (hn : g.entries.card ≤ n) :
    ∃ tbl', l.foldlM (fun new_table ent => do
        let key ← ent.key
        let r ← new_table.insertImpl null key rehash ent.data
        some r.2) tbl = some tbl' ∧ Refines tbl' g := by
  induction l generalizing tbl f with
  | nil =>
    cases Finmap.ext (hg.trans (zero_add _))
    exact ⟨tbl, rfl, h⟩
  | cons ent l ih =>
    obtain ⟨key, hkey⟩ := Option.isSome_iff_exists.mp (hkeys ent (.head _))
    have hpairs : g.entries = ⟨key, ent.data⟩ ::ₘ ((pairsOf l : Multiset _) + f.entries) := by
      rw [hg, ← List.nil_append (ent :: l), cons_entries hkey]
      rfl
    obtain ⟨g', hg', hnot, rfl⟩ := eq_insert_of_entries hpairs
    have hfresh : key ∉ f := by
      rw [mem_def, hg', Multiset.keys, map_add, mem_add] at hnot
      exact fun hmem => hnot (.inr hmem)
    obtain ⟨tbl₁, h₁, href⟩ := h.insertImpl null key ent.data fun m hm => hrehash h (by
      rw [hpairs, card_cons, card_add] at hn
      omega) m hm
    rw [List.foldlM_cons, hkey]
    simp only [Option.bind_eq_bind, Option.bind_some, h₁]
    refine ih (fun e he => hkeys e (.tail _ he)) href ?_
    rw [hpairs, entries_insert_of_notMem hfresh, add_cons]

theorem hashTableRehash {depth : ℕ} (h : Refines tbl f) (hdepth : f.entries.card < depth) {n : ℕ}
    (hn : 0 < n) : ∃ tbl', tbl.hashTableRehash null depth n = some tbl' ∧ Refines tbl' f := by
  induction depth generalizing tbl f n with
  | zero => cases hdepth
  | succ depth ih =>
    obtain ⟨hpairs, hkeys⟩ := visited_skipEmpty h.keyed
    exact foldlM_insert null (fun h hlt m hm => ih h hlt hm) hkeys (make null _ hn)
      (by rw [hpairs, h.entries]; exact (add_zero _).symm) (Nat.le_of_lt_succ hdepth)

theorem lt_depth (h : Refines tbl f) : f.entries.card < tbl.entries_count + 1 := by
  rw [h.count]
  exact Nat.lt_succ_self _

theorem hashTableInsert (h : Refines tbl f) (key : List UInt8) (value : V) : ∃ tbl',
    tbl.hashTableInsert null key value = some ((f.lookup key).getD null, tbl') ∧
      Refines tbl' (f.insert key value) :=
  h.insertImpl null key value fun _ hn => h.hashTableRehash null h.lt_depth hn

theorem run (h : Refines tbl f) (op : HashTableOp V) : ∃ tbl',
    op.run null tbl = some ((op.spec null f).1, tbl') ∧ Refines tbl' (op.spec null f).2 := by
  cases op with
  | insert key value =>
    obtain ⟨tbl', hrun, href⟩ := h.hashTableInsert null key value
    exact ⟨tbl', by rw [HashTableOp.run, hrun]; rfl, href⟩
  | delete key =>
    obtain ⟨tbl', hrun, href⟩ := h.hashTableDelete null key
    exact ⟨tbl', by rw [HashTableOp.run, hrun]; rfl, href⟩
  | lookup key => exact ⟨tbl, by rw [HashTableOp.run, h.hashTableLookup]; rfl, h⟩
  | contains key => exact ⟨tbl, by rw [HashTableOp.run, h.hashTableContains]; rfl, h⟩
  | reserve n =>
    obtain ⟨tbl', hrun, href⟩ := h.hashTableRehash null h.lt_depth
      (Nat.succ_pos (tbl.load_factor.scaled n + 1))
    exact ⟨tbl', by rw [HashTableOp.run, StringHashTable.hashTableReserve, hrun]; rfl, href⟩
  | iterate =>
    obtain ⟨hpairs, hkeys⟩ := visited_skipEmpty h.keyed
    refine ⟨tbl, ?_, h⟩
    rw [HashTableOp.run, HashTableOp.spec, h.entries, ← hpairs, map_coe, map_pairsOf hkeys]

theorem runTable (h : Refines tbl f) (ops : List (HashTableOp V)) : ∃ tbl',
    runTable null tbl ops = some ((runMap null f ops).1, tbl') ∧
      Refines tbl' (runMap null f ops).2 := by
  induction ops generalizing tbl f with
  | nil => exact ⟨tbl, rfl, h⟩
  | cons op ops ih =>
    obtain ⟨tbl₁, h₁, href⟩ := h.run null op
    obtain ⟨tbl', hrun, href'⟩ := ih href
    refine ⟨tbl', ?_, href'⟩
    rw [TraceJvm.runTable, h₁]
    simp only [Option.bind_eq_bind, Option.bind_some, hrun]
    rfl

end Refines

/-- A new table refines a finite map through every run of its operations: each returns what the map
has, and `entries_count` is the number of its keys. -/
theorem runTable_refines (load_factor : LoadFactor) {initial_capacity : ℕ}
    (hcap : 0 < initial_capacity) (ops : List (HashTableOp V)) : ∃ tbl,
    runTable null (makeHashTable null load_factor initial_capacity) ops =
        some ((runMap null ∅ ops).1, tbl) ∧
      tbl.entries_count = (runMap null ∅ ops).2.keys.card := by
  obtain ⟨tbl, hrun, href⟩ := (Refines.make null load_factor hcap).runTable null ops
  refine ⟨tbl, hrun, href.count.trans ?_⟩
  exact (card_map _ _).symm

/-- The load factor 0.75. -/
def threeQuarters : LoadFactor := ⟨fun count cap => 3 * cap ≤ 4 * (count + 1), fun n => n * 3 / 4⟩

/-- Keys with a NUL in a table of one element, which is rehashed on the way. -/
theorem runTable_refines_rehash : ∃ tbl,
    runTable 0 (makeHashTable 0 threeQuarters 1) [.insert [97] 7, .insert [97, 0] 8, .insert [97] 9,
        .delete [97, 0], .lookup [97]] =
      some ([.value 0, .value 0, .value 7, .value 8, .value 9], tbl) ∧ tbl.entries_count = 1 :=
  runTable_refines 0 threeQuarters Nat.one_pos _

end TraceJvm
