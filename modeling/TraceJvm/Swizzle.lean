import TraceJvm.KindTyping
import Mathlib.Data.List.Nodup
import Mathlib.Data.List.Perm.Subperm
import Mathlib.Order.Nat

/-! The renumbering of the locals. It permutes the local slots and sends the slots at which the
arguments start, in order, to the first numbers. -/
namespace TraceJvm

open List

variable {j : ℕ}

theorem argSlots_bounds {maxLocals : ℕ} {args : List FieldDescriptor} {l : List ℕ}
    (h : argSlots maxLocals j args = some l) :
    (∀ s ∈ l, j ≤ s ∧ s < maxLocals) ∧ l.Nodup ∧ l.length = args.length := by
  induction args generalizing j l with
  | nil =>
    obtain rfl : [] = l := by simpa [argSlots] using h
    simp
  | cons a as ih =>
    simp only [argSlots] at h
    have hcons : ∀ d, j < maxLocals → 1 ≤ d →
        (argSlots maxLocals (j + d) as).map (j :: ·) = some l →
        (∀ s ∈ l, j ≤ s ∧ s < maxLocals) ∧ l.Nodup ∧ l.length = (a :: as).length := by
      intro d hj hd hmap
      obtain ⟨t, ht, rfl⟩ := Option.map_eq_some_iff.mp hmap
      obtain ⟨hb, hn, hl⟩ := ih ht
      refine ⟨?_, nodup_cons.mpr ⟨fun hm => ?_, hn⟩, by simp [hl]⟩
      · intro s hs
        rcases mem_cons.mp hs with rfl | hs
        · exact ⟨le_rfl, hj⟩
        · have := hb s hs
          omega
      · have := (hb j hm).1
        omega
    split at h
    · rename_i hj
      split at h
      · split at h
        · exact hcons 2 hj (by omega) h
        · cases h
      · exact hcons 1 hj le_rfl h
    · cases h

theorem CodeMethod.entrySlots_bounds {m : CodeMethod} {l : List ℕ} (h : m.entrySlots = some l) :
    (∀ s ∈ l, s < m.maxLocals) ∧ l.Nodup ∧ l.length = m.entryKinds.length := by
  unfold CodeMethod.entrySlots at h
  split at h
  · rename_i hs
    obtain ⟨hb, hn, hl⟩ := argSlots_bounds h
    exact ⟨fun s hs => (hb s hs).2, hn, by simp [CodeMethod.entryKinds, hs, hl]⟩
  · rename_i hs
    split at h
    · cases h
    · rename_i hpos
      obtain ⟨t, ht, rfl⟩ := Option.map_eq_some_iff.mp h
      obtain ⟨hb, hn, hl⟩ := argSlots_bounds ht
      refine ⟨?_, nodup_cons.mpr ⟨fun hm => ?_, hn⟩, by simp [CodeMethod.entryKinds, hs, hl]⟩
      · intro s hs
        rcases mem_cons.mp hs with rfl | hs
        · omega
        · exact (hb s hs).2
      · have := (hb 0 hm).1
        omega

theorem fillSwizzle_length (slots js : List ℕ) (next : ℕ) :
    (fillSwizzle slots js next).length = js.length := by
  induction js generalizing next with
  | nil => rfl
  | cons j js ih =>
    simp only [fillSwizzle]
    split <;> simp [ih]

variable {js slots : List ℕ} {next : ℕ}

/-- Every number given out belongs to an argument or is counted from `next`. -/
theorem fillSwizzle_mem {x : ℕ} (h : x ∈ fillSwizzle slots js next) :
    (∃ j ∈ js, slots.idxOf? j = some x) ∨
      next ≤ x ∧ x < next + (js.filter fun j => j ∉ slots).length := by
  induction js generalizing next with
  | nil => simp [fillSwizzle] at h
  | cons j js ih =>
    simp only [fillSwizzle] at h
    split at h
    · rename_i n hn
      rcases mem_cons.mp h with rfl | h
      · exact .inl ⟨j, by simp, hn⟩
      · have hj : j ∈ slots := by
          by_contra hj
          rw [idxOf?_eq_none_iff.mpr hj] at hn
          cases hn
        rcases ih h with ⟨j', hj', hx⟩ | hx
        · exact .inl ⟨j', by simp [hj'], hx⟩
        · exact .inr (by simpa [hj] using hx)
    · rename_i hn
      have hj : j ∉ slots := idxOf?_eq_none_iff.mp hn
      have hlen : ((j :: js).filter fun j => j ∉ slots).length =
          (js.filter fun j => j ∉ slots).length + 1 := by
        simp [hj]
      rcases mem_cons.mp h with rfl | h
      · exact .inr ⟨le_rfl, by omega⟩
      · rcases ih h with ⟨j', hj', hx⟩ | hx
        · exact .inl ⟨j', by simp [hj'], hx⟩
        · exact .inr ⟨by omega, by omega⟩

theorem idxOf?_lt {n : ℕ} (h : slots.idxOf? j = some n) :
    n < slots.length ∧ slots[n]? = some j := by
  rw [idxOf?_eq_some_iff] at h
  obtain ⟨hn, hj, -⟩ := h
  exact ⟨hn, by rw [getElem?_eq_getElem hn, hj]⟩

theorem fillSwizzle_nodup (hjs : js.Nodup)
    (hnext : slots.length ≤ next) : (fillSwizzle slots js next).Nodup := by
  induction js generalizing next with
  | nil => simp [fillSwizzle]
  | cons j js ih =>
    obtain ⟨hj, hjs⟩ := nodup_cons.mp hjs
    simp only [fillSwizzle]
    split
    · rename_i n hn
      refine nodup_cons.mpr ⟨fun hm => ?_, ih hjs hnext⟩
      obtain ⟨hlt, hget⟩ := idxOf?_lt hn
      rcases fillSwizzle_mem hm with ⟨j', hj', hx⟩ | hx
      · have hget' := (idxOf?_lt hx).2
        rw [hget] at hget'
        obtain rfl : j = j' := Option.some.inj hget'
        exact hj hj'
      · omega
    · refine nodup_cons.mpr ⟨fun hm => ?_, ih hjs (by omega)⟩
      rcases fillSwizzle_mem hm with ⟨j', -, hx⟩ | hx
      · have := (idxOf?_lt hx).1
        omega
      · omega

theorem fillSwizzle_slot {n p : ℕ} (hn : slots[n]? = some j)
    (hs : slots.Nodup) (hp : js[p]? = some j) : (fillSwizzle slots js next)[p]? = some n := by
  have hidx : slots.idxOf? j = some n := by
    rw [idxOf?_eq_some_iff]
    obtain ⟨hlt, hget⟩ := List.getElem?_eq_some_iff.mp hn
    refine ⟨hlt, hget, fun k hk hkj => ?_⟩
    have hinj := nodup_iff_injective_get.mp hs
    have heq : slots.get ⟨k, by omega⟩ = slots.get ⟨n, hlt⟩ := by simpa using hkj.trans hget.symm
    have := hinj heq
    simp at this
    omega
  induction js generalizing next p with
  | nil => simp at hp
  | cons a js ih =>
    cases p with
    | zero =>
      obtain rfl : a = j := by simpa using hp
      simp [fillSwizzle, hidx]
    | succ p =>
      simp only [fillSwizzle]
      split <;> simpa using ih (by simpa using hp)

structure Swizzles (maxLocals : ℕ) (swizzle : List ℕ) : Prop where
  length : swizzle.length = maxLocals
  nodup : swizzle.Nodup
  lt : ∀ j ∈ swizzle, j < maxLocals

variable {swizzle : List ℕ} {maxLocals : ℕ}

theorem Swizzles.get_inj (h : Swizzles maxLocals swizzle)
    {s t : ℕ} (hs : swizzle[s]? = some j) (ht : swizzle[t]? = some j) : s = t := by
  obtain ⟨hs', hsj⟩ := List.getElem?_eq_some_iff.mp hs
  obtain ⟨ht', htj⟩ := List.getElem?_eq_some_iff.mp ht
  exact (List.Nodup.getElem_inj_iff h.nodup).mp (hsj.trans htj.symm)

theorem Swizzles.get_lt (h : Swizzles maxLocals swizzle)
    {s : ℕ} (hs : swizzle[s]? = some j) : s < maxLocals ∧ j < maxLocals := by
  obtain ⟨hs', hsj⟩ := List.getElem?_eq_some_iff.mp hs
  exact ⟨h.length ▸ hs', h.lt j (hsj ▸ getElem_mem hs')⟩

theorem Swizzles.exists_get (h : Swizzles maxLocals swizzle)
    {s : ℕ} (hs : s < maxLocals) : ∃ j, swizzle[s]? = some j :=
  ⟨_, getElem?_eq_getElem (h.length ▸ hs)⟩

theorem Swizzles.exists_slot (h : Swizzles maxLocals swizzle)
    (hj : j < maxLocals) : ∃ s : ℕ, swizzle[s]? = some j := by
  have hsub : swizzle.Subperm (List.range maxLocals) :=
    subperm_of_subset h.nodup fun i hi => mem_range.mpr (h.lt i hi)
  have hperm := hsub.perm_of_length_le (by simp [h.length])
  exact getElem?_of_mem (hperm.mem_iff.mpr (mem_range.mpr hj))

theorem localsOnMethodEntry_swizzles {m : CodeMethod} {locals : List TypeKind}
    (h : m.localsOnMethodEntry = .ok (swizzle, locals)) :
    Swizzles m.maxLocals swizzle ∧ locals.length = m.maxLocals ∧
      ∃ slots, m.entrySlots = some slots ∧
        ∀ n j : ℕ, slots[n]? = some j → swizzle[j]? = some n := by
  unfold CodeMethod.localsOnMethodEntry at h
  split at h
  · cases h
  · rename_i slots hslots
    obtain ⟨rfl, rfl⟩ : fillSwizzle slots (List.range m.maxLocals) slots.length = swizzle ∧
        m.entryKinds ++ List.replicate (m.maxLocals - slots.length) .void = locals := by
      simpa using h
    obtain ⟨hlt, hnodup, hlen⟩ := m.entrySlots_bounds hslots
    have hsub : slots.length ≤ m.maxLocals := by
      have hsubset : slots ⊆ List.range m.maxLocals := fun s hs => mem_range.mpr (hlt s hs)
      have := (subperm_of_subset hnodup hsubset).length_le
      simpa using this
    have hcount : ((List.range m.maxLocals).filter fun j => j ∉ slots).length =
        m.maxLocals - slots.length := by
      have hperm : ((List.range m.maxLocals).filter fun j => j ∈ slots).Perm slots := by
        rw [perm_ext_iff_of_nodup (nodup_range.filter _) hnodup]
        intro s
        simp only [mem_filter, mem_range, decide_eq_true_eq]
        exact ⟨fun h => h.2, fun h => ⟨hlt s h, h⟩⟩
      have hsum := length_eq_length_filter_add (l := List.range m.maxLocals)
        fun j => decide (j ∈ slots)
      rw [hperm.length_eq] at hsum
      simp only [length_range] at hsum
      have hneg : ((List.range m.maxLocals).filter fun j => !decide (j ∈ slots)) =
          (List.range m.maxLocals).filter fun j => decide (j ∉ slots) := by
        simp
      rw [hneg] at hsum
      omega
    refine ⟨⟨by simp [fillSwizzle_length], fillSwizzle_nodup nodup_range le_rfl, ?_⟩, ?_,
      slots, hslots, ?_⟩
    · intro x hx
      rcases fillSwizzle_mem hx with ⟨j, -, hj⟩ | hx
      · have := (idxOf?_lt hj).1
        omega
      · omega
    · simp only [length_append, length_replicate]
      omega
    · intro n j hn
      have hj : j < m.maxLocals := hlt j (mem_of_getElem? hn)
      exact fillSwizzle_slot hn hnodup (by simp [hj])

end TraceJvm
