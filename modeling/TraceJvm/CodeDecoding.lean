import TraceJvm.JvmsCode
import TraceJvm.Lib.Outcome

/-! The parser of `Code` attributes decodes the instruction sequence of the code bytes. -/
namespace TraceJvm

open ByteReader List OrderedMap
open ByteReader.Parser

def InCode (maxPc : ℕ) (p : ℤ) (t : ℕ) : Prop := (t : ℤ) = p ∧ t < maxPc

/-- The front of `bs` is an instruction at `pc` whose decoded form is `b`, up to the translation of
branch targets. -/
def Parsed (cp : List CpEntry) (maxPc pc : ℕ) (bs : List UInt8) (b : BytecodeInsn)
    (rest : List UInt8) : Prop :=
  ∃ j : JvmsInsn, bs = j.encode ++ rest ∧ j.Valid pc ∧
    j.Denotes acceptedKinds cp (InCode maxPc) pc b

variable {cp : List CpEntry} {maxPc pc : ℕ} {bs rest : List UInt8}

variable {reason : String}

variable {n : ℕ}

theorem nextU8_ok (h : nextU8 reason bs = .ok (n, rest)) :
    bs = bytes 1 n ++ rest ∧ n < 256 := next_ok h

theorem nextU16_ok (h : nextU16 reason bs = .ok (n, rest)) :
    bs = bytes 2 n ++ rest ∧ n < 256 ^ 2 := next_ok h

theorem nextS8_ok {v : ℤ} (h : nextS8 reason bs = .ok (v, rest)) :
    bs = signedBytes 1 v ++ rest ∧ FitsSigned 1 v := nextSigned_ok h

theorem nextS16_ok {v : ℤ} (h : nextS16 reason bs = .ok (v, rest)) :
    bs = signedBytes 2 v ++ rest ∧ FitsSigned 2 v := nextSigned_ok h

theorem nextS32_ok {v : ℤ} (h : nextS32 reason bs = .ok (v, rest)) :
    bs = signedBytes 4 v ++ rest ∧ FitsSigned 4 v := nextSigned_ok h

theorem checkedCpEntry_ok {index : ℕ} {expected : List CpKind} {e : CpEntry}
    (h : checkedCpEntry cp index expected reason bs = .ok (e, rest)) :
    rest = bs ∧ cp[index]? = some e ∧ e.kind ∈ expected := by
  unfold checkedCpEntry at h
  cases he : cp[index]? with
  | none =>
    rw [he] at h
    exact absurd h throw_ne_ok
  | some e' =>
    rw [he] at h
    by_cases hkind : e'.kind ∈ expected
    · simp only [if_pos hkind] at h
      cases pure_eq_ok.1 h
      exact ⟨rfl, rfl, hkind⟩
    · simp only [if_neg hkind] at h
      exact absurd h throw_ne_ok

theorem checkedPc_ok {offset : ℤ} {t : ℕ} (h : checkedPc maxPc pc offset bs = .ok (t, rest)) :
    rest = bs ∧ InCode maxPc (pc + offset) t := by
  unfold checkedPc at h
  split at h
  · exact absurd h throw_ne_ok
  · rename_i hrange
    cases pure_eq_ok.1 h
    refine ⟨rfl, ?_, ?_⟩
    · omega
    · omega

theorem skipPadding_ok {u : Unit} (h : skipPadding n bs = .ok (u, rest)) :
    ∃ pad, bs = pad ++ rest ∧ pad.length = n := by
  induction n generalizing bs with
  | zero =>
    cases pure_eq_ok.1 h
    exact ⟨[], rfl, rfl⟩
  | succ n ih =>
    obtain ⟨b, bs', hb, h₁⟩ := bind_eq_ok.1 h
    obtain ⟨rfl, -⟩ := nextU8_ok hb
    obtain ⟨pad, rfl, hlen⟩ := ih h₁
    exact ⟨bytes 1 b ++ pad, by simp, by simp [hlen]; omega⟩

theorem readTargets_ok {ts : List ℕ} (h : readTargets maxPc pc n bs = .ok (ts, rest)) :
    ∃ offsets : List ℤ, bs = offsets.flatMap (signedBytes 4) ++ rest ∧ offsets.length = n ∧
      (∀ o ∈ offsets, FitsSigned 4 o) ∧
      List.Forall₂ (fun (o : ℤ) t => InCode maxPc (pc + o) t) offsets ts := by
  induction n generalizing bs ts with
  | zero =>
    cases pure_eq_ok.1 h
    exact ⟨[], rfl, rfl, by simp, .nil⟩
  | succ n ih =>
    obtain ⟨o, bs₁, ho, h₁⟩ := bind_eq_ok.1 h
    obtain ⟨rfl, hfits⟩ := nextS32_ok ho
    obtain ⟨t, bs₂, ht, h₂⟩ := bind_eq_ok.1 h₁
    obtain ⟨rfl, hin⟩ := checkedPc_ok ht
    obtain ⟨ts', bs₃, hts, h₃⟩ := bind_eq_ok.1 h₂
    cases pure_eq_ok.1 h₃
    obtain ⟨offsets, rfl, hlen, hall, htargets⟩ := ih hts
    refine ⟨o :: offsets, by simp, by simp [hlen], ?_, .cons hin htargets⟩
    intro o' ho'
    obtain rfl | ho' := mem_cons.1 ho'
    · exact hfits
    · exact hall o' ho'

theorem readPairs_ok {keys : List ℤ} {ts : List ℕ}
    (h : readPairs maxPc pc n bs = .ok ((keys, ts), rest)) : ∃ pairs : List (ℤ × ℤ),
      bs = pairs.flatMap (fun p => signedBytes 4 p.1 ++ signedBytes 4 p.2) ++ rest ∧
      pairs.length = n ∧ (∀ p ∈ pairs, FitsSigned 4 p.1 ∧ FitsSigned 4 p.2) ∧
      pairs.map Prod.fst = keys ∧
      List.Forall₂ (fun (p : ℤ × ℤ) t => InCode maxPc (pc + p.2) t) pairs ts := by
  induction n generalizing bs keys ts with
  | zero =>
    obtain ⟨hr, rfl⟩ := Prod.mk.inj (pure_eq_ok.1 h)
    cases hr
    exact ⟨[], rfl, rfl, by simp, rfl, .nil⟩
  | succ n ih =>
    obtain ⟨k, bs₁, hk, h₁⟩ := bind_eq_ok.1 h
    obtain ⟨rfl, hkfits⟩ := nextS32_ok hk
    obtain ⟨o, bs₂, ho, h₂⟩ := bind_eq_ok.1 h₁
    obtain ⟨rfl, hfits⟩ := nextS32_ok ho
    obtain ⟨t, bs₃, ht, h₃⟩ := bind_eq_ok.1 h₂
    obtain ⟨rfl, hin⟩ := checkedPc_ok ht
    obtain ⟨⟨ks, ts'⟩, bs₄, hts, h₄⟩ := bind_eq_ok.1 h₃
    obtain ⟨hr, rfl⟩ := Prod.mk.inj (pure_eq_ok.1 h₄)
    cases hr
    obtain ⟨pairs, rfl, hlen, hall, rfl, htargets⟩ := ih hts
    refine ⟨(k, o) :: pairs, by simp, by simp [hlen], ?_, rfl, .cons hin htargets⟩
    intro p hp
    obtain rfl | hp := mem_cons.1 hp
    · exact ⟨hkfits, hfits⟩
    · exact hall p hp

theorem aligned_paddingOf {pad : List UInt8} (h : pad.length = paddingOf pc) :
    JvmsInsn.Aligned pc pad := by
  unfold JvmsInsn.Aligned
  rw [h, paddingOf]
  omega

variable {r : InsnKind × InsnOperand}

theorem parseTableswitchInsn_ok (h : parseTableswitchInsn maxPc pc bs = .ok (r, rest)) :
    Parsed cp maxPc pc (bytes 1 170 ++ bs) ⟨r.1, pc, r.2⟩ rest := by
  obtain ⟨u, bs₁, hskip, h₁⟩ := bind_eq_ok.1 h
  obtain ⟨pad, rfl, hpad⟩ := skipPadding_ok hskip
  obtain ⟨d, bs₂, hd, h₂⟩ := bind_eq_ok.1 h₁
  obtain ⟨rfl, hdfits⟩ := nextS32_ok hd
  obtain ⟨dt, bs₃, hdt, h₃⟩ := bind_eq_ok.1 h₂
  obtain ⟨rfl, hdin⟩ := checkedPc_ok hdt
  obtain ⟨low, bs₄, hlow, h₄⟩ := bind_eq_ok.1 h₃
  obtain ⟨rfl, hlowfits⟩ := nextS32_ok hlow
  obtain ⟨high, bs₅, hhigh, h₅⟩ := bind_eq_ok.1 h₄
  obtain ⟨rfl, hhighfits⟩ := nextS32_ok hhigh
  split at h₅
  · exact absurd h₅ throw_ne_ok
  split at h₅
  · exact absurd h₅ throw_ne_ok
  rename_i hpos
  obtain ⟨ts, bs₆, hts, h₆⟩ := bind_eq_ok.1 h₅
  cases pure_eq_ok.1 h₆
  obtain ⟨offsets, rfl, hlen, hall, htargets⟩ := readTargets_ok hts
  refine ⟨.tableswitch pad d low high offsets, by simp [JvmsInsn.encode], ?_, dt, ts, hdin,
    htargets, rfl⟩
  exact ⟨aligned_paddingOf hpad, hdfits, hlowfits, hhighfits, by omega, hall⟩

theorem parseLookupswitchInsn_ok (h : parseLookupswitchInsn maxPc pc bs = .ok (r, rest)) :
    Parsed cp maxPc pc (bytes 1 171 ++ bs) ⟨r.1, pc, r.2⟩ rest := by
  obtain ⟨u, bs₁, hskip, h₁⟩ := bind_eq_ok.1 h
  obtain ⟨pad, rfl, hpad⟩ := skipPadding_ok hskip
  obtain ⟨d, bs₂, hd, h₂⟩ := bind_eq_ok.1 h₁
  obtain ⟨rfl, hdfits⟩ := nextS32_ok hd
  obtain ⟨dt, bs₃, hdt, h₃⟩ := bind_eq_ok.1 h₂
  obtain ⟨rfl, hdin⟩ := checkedPc_ok hdt
  obtain ⟨count, bs₄, hcount, h₄⟩ := bind_eq_ok.1 h₃
  obtain ⟨rfl, hcountfits⟩ := nextS32_ok hcount
  simp only at h₄
  split at h₄
  · exact absurd h₄ throw_ne_ok
  rename_i hpos
  obtain ⟨⟨keys, ts⟩, bs₅, hts, h₅⟩ := bind_eq_ok.1 h₄
  cases pure_eq_ok.1 h₅
  obtain ⟨pairs, rfl, hlen, hall, rfl, htargets⟩ := readPairs_ok hts
  have hcount' : (pairs.length : ℤ) = count := by omega
  refine ⟨.lookupswitch pad d pairs, by simp [JvmsInsn.encode, hcount'], ?_, dt, ts, hdin,
    htargets, rfl⟩
  exact ⟨aligned_paddingOf hpad, hdfits, by rw [hcount']; exact hcountfits, hall⟩

theorem plainInsns_opcode : ∀ p ∈ plainInsns, simpleOpcode p.2 = some p.1 := by decide

theorem localInsns_opcode : ∀ p ∈ localInsns, localOpcode p.2.1 = some p.1 := by decide

theorem wideInsns_opcode : ∀ p ∈ wideInsns, localOpcode p.2.1 = some p.1 := by decide

theorem shortLocals_opcode : ∀ p ∈ shortLocals, shortLocalOpcode p.2 = some p.1 := by decide

theorem branchInsns_opcode : ∀ p ∈ branchInsns, branchOpcode p.2.1 = some p.1 := by decide

theorem cpInsns_opcode :
    ∀ p ∈ cpInsns, memberOpcode p.2.1 = some p.1 ∧ acceptedKinds p.2.1 = p.2.2.1 := by decide

theorem parseLdc_ok {i : ℕ} (h : parseLdc cp i bs = .ok (r, rest)) :
    rest = bs ∧ ((∃ v, cp[i]? = some (.integer v) ∧ r = (.iconst, .integerImm v)) ∨
      (∃ f, cp[i]? = some (.float f) ∧ r = (.fconst, .fImm f)) ∨
      RefersTo acceptedKinds cp .ldc i ∧ r = (.ldc, .cp i)) := by
  obtain ⟨e, bs₁, he, h₁⟩ := bind_eq_ok.1 h
  obtain ⟨rfl, hcp, hkind⟩ := checkedCpEntry_ok he
  cases e with
  | integer v =>
    cases pure_eq_ok.1 h₁
    exact ⟨rfl, .inl ⟨v, hcp, rfl⟩⟩
  | float f =>
    cases pure_eq_ok.1 h₁
    exact ⟨rfl, .inr (.inl ⟨f, hcp, rfl⟩)⟩
  | long v | double d => simp [CpEntry.kind] at hkind
  | other k hk =>
    cases pure_eq_ok.1 h₁
    refine ⟨rfl, .inr (.inr ⟨⟨_, hcp, ?_⟩, rfl⟩)⟩
    simp only [CpEntry.kind, mem_cons, not_mem_nil, or_false, not_or] at hkind hk ⊢
    obtain rfl | rfl | rfl | rfl := hkind
    · exact absurd rfl hk.1
    · exact absurd rfl hk.2.1
    · decide
    · decide

theorem denotes_ldc {i : ℕ}
    (h : (∃ v, cp[i]? = some (.integer v) ∧ r = (.iconst, .integerImm v)) ∨
      (∃ f, cp[i]? = some (.float f) ∧ r = (.fconst, .fImm f)) ∨
      RefersTo acceptedKinds cp .ldc i ∧ r = (.ldc, .cp i)) :
    JvmsInsn.Denotes acceptedKinds cp (InCode maxPc) pc ⟨r.1, pc, r.2⟩ (.ldc i) := by
  obtain ⟨v, hcp, rfl⟩ | ⟨f, hcp, rfl⟩ | ⟨href, rfl⟩ := h
  · exact .inl ⟨v, hcp, rfl⟩
  · exact .inr (.inl ⟨f, hcp, rfl⟩)
  · exact .inr (.inr ⟨href, rfl⟩)

theorem parseLdc2W_ok {i : ℕ} (h : parseLdc2W cp i bs = .ok (r, rest)) :
    rest = bs ∧ ((∃ v, cp[i]? = some (.long v) ∧ r = (.lconst, .integerImm v)) ∨
      ∃ d, cp[i]? = some (.double d) ∧ r = (.dconst, .dImm d)) := by
  obtain ⟨e, bs₁, he, h₁⟩ := bind_eq_ok.1 h
  obtain ⟨rfl, hcp, hkind⟩ := checkedCpEntry_ok he
  cases e with
  | integer v | float f => simp [CpEntry.kind] at hkind
  | long v =>
    cases pure_eq_ok.1 h₁
    exact ⟨rfl, .inl ⟨v, hcp, rfl⟩⟩
  | double d =>
    cases pure_eq_ok.1 h₁
    exact ⟨rfl, .inr ⟨d, hcp, rfl⟩⟩
  | other k hk =>
    simp only [CpEntry.kind, mem_cons, not_mem_nil, or_false, not_or] at hkind hk
    obtain rfl | rfl := hkind
    · exact absurd rfl hk.2.2.2
    · exact absurd rfl hk.2.2.1

theorem parseWide_ok (h : parseWide bs = .ok (r, rest)) :
    Parsed cp maxPc pc (bytes 1 196 ++ bs) ⟨r.1, pc, r.2⟩ rest := by
  obtain ⟨op, bs₁, hop, h₁⟩ := bind_eq_ok.1 h
  obtain ⟨rfl, hlt⟩ := nextU8_ok hop
  cases hget : get wideInsns op with
  | some p =>
    obtain ⟨k, reason⟩ := p
    simp only [hget] at h₁
    have hopcode := wideInsns_opcode _ (mem_of_get hget)
    obtain ⟨i, bs₂, hi, h₂⟩ := bind_eq_ok.1 h₁
    obtain ⟨rfl, hilt⟩ := nextU16_ok hi
    cases pure_eq_ok.1 h₂
    refine ⟨.wideLocal k i, ?_, ⟨by rw [hopcode]; rfl, hilt⟩, rfl⟩
    simp [JvmsInsn.encode, hopcode, opcodeBytes]
  | none =>
    simp only [hget] at h₁
    split at h₁
    · rename_i hiinc
      subst hiinc
      obtain ⟨i, bs₂, hi, h₂⟩ := bind_eq_ok.1 h₁
      obtain ⟨rfl, hilt⟩ := nextU16_ok hi
      obtain ⟨c, bs₃, hc, h₃⟩ := bind_eq_ok.1 h₂
      obtain ⟨rfl, hfits⟩ := nextS16_ok hc
      cases pure_eq_ok.1 h₃
      exact ⟨.wideIinc i c, by simp [JvmsInsn.encode], ⟨hilt, hfits⟩, rfl⟩
    · exact absurd h₁ throw_ne_ok

theorem parseAtype_eq {a : ℕ} {k : TypeKind} (h : parseAtype a = some k) :
    jvmsArrayType k = some a := by
  unfold parseAtype at h
  split at h <;> first | (obtain rfl := Option.some.inj h; rfl) | simp at h

theorem parseSpecial_ok {op : ℕ} (h : parseSpecial cp maxPc pc op bs = .ok (r, rest)) :
    Parsed cp maxPc pc (bytes 1 op ++ bs) ⟨r.1, pc, r.2⟩ rest := by
  unfold parseSpecial at h
  split at h
  case h_1 =>
    obtain ⟨v, bs₁, hv, h₁⟩ := bind_eq_ok.1 h
    obtain ⟨rfl, hfits⟩ := nextS8_ok hv
    cases pure_eq_ok.1 h₁
    exact ⟨.bipush v, by simp [JvmsInsn.encode], hfits, rfl⟩
  case h_2 =>
    obtain ⟨v, bs₁, hv, h₁⟩ := bind_eq_ok.1 h
    obtain ⟨rfl, hfits⟩ := nextS16_ok hv
    cases pure_eq_ok.1 h₁
    exact ⟨.sipush v, by simp [JvmsInsn.encode], hfits, rfl⟩
  case h_3 =>
    obtain ⟨i, bs₁, hi, h₁⟩ := bind_eq_ok.1 h
    obtain ⟨rfl, hlt⟩ := nextU8_ok hi
    obtain ⟨rfl, hldc⟩ := parseLdc_ok h₁
    refine ⟨.ldc i, by simp [JvmsInsn.encode], hlt, ?_⟩
    exact denotes_ldc hldc
  case h_4 =>
    obtain ⟨i, bs₁, hi, h₁⟩ := bind_eq_ok.1 h
    obtain ⟨rfl, hlt⟩ := nextU16_ok hi
    obtain ⟨rfl, hldc⟩ := parseLdc_ok h₁
    have hden : JvmsInsn.Denotes acceptedKinds cp (InCode maxPc) pc ⟨r.1, pc, r.2⟩ (.ldc i) :=
      denotes_ldc hldc
    exact ⟨.ldcW i, by simp [JvmsInsn.encode], hlt, hden⟩
  case h_5 =>
    obtain ⟨i, bs₁, hi, h₁⟩ := bind_eq_ok.1 h
    obtain ⟨rfl, hlt⟩ := nextU16_ok hi
    obtain ⟨rfl, ⟨v, hcp, rfl⟩ | ⟨d, hcp, rfl⟩⟩ := parseLdc2W_ok h₁
    · exact ⟨.ldc2W i, by simp [JvmsInsn.encode], hlt, .inl ⟨v, hcp, rfl⟩⟩
    · exact ⟨.ldc2W i, by simp [JvmsInsn.encode], hlt, .inr ⟨d, hcp, rfl⟩⟩
  case h_6 =>
    obtain ⟨i, bs₁, hi, h₁⟩ := bind_eq_ok.1 h
    obtain ⟨rfl, hlt⟩ := nextU8_ok hi
    obtain ⟨c, bs₂, hc, h₂⟩ := bind_eq_ok.1 h₁
    obtain ⟨rfl, hfits⟩ := nextS8_ok hc
    cases pure_eq_ok.1 h₂
    exact ⟨.iinc i c, by simp [JvmsInsn.encode], ⟨hlt, hfits⟩, rfl⟩
  case h_7 => exact parseTableswitchInsn_ok h
  case h_8 => exact parseLookupswitchInsn_ok h
  case h_9 =>
    obtain ⟨i, bs₁, hi, h₁⟩ := bind_eq_ok.1 h
    obtain ⟨rfl, hlt⟩ := nextU16_ok hi
    obtain ⟨e, bs₂, he, h₂⟩ := bind_eq_ok.1 h₁
    obtain ⟨rfl, hcp, hkind⟩ := checkedCpEntry_ok he
    obtain ⟨count, bs₃, hcount, h₃⟩ := bind_eq_ok.1 h₂
    obtain ⟨rfl, hclt⟩ := nextU8_ok hcount
    obtain ⟨pad0, bs₄, hpad, h₄⟩ := bind_eq_ok.1 h₃
    obtain ⟨rfl, hplt⟩ := nextU8_ok hpad
    cases pure_eq_ok.1 h₄
    exact ⟨.invokeinterface i count pad0, by simp [JvmsInsn.encode], ⟨hlt, hclt, hplt⟩,
      ⟨e, hcp, hkind⟩, rfl⟩
  case h_10 =>
    obtain ⟨i, bs₁, hi, h₁⟩ := bind_eq_ok.1 h
    obtain ⟨rfl, hlt⟩ := nextU16_ok hi
    obtain ⟨e, bs₂, he, h₂⟩ := bind_eq_ok.1 h₁
    obtain ⟨rfl, hcp, hkind⟩ := checkedCpEntry_ok he
    obtain ⟨pad0, bs₃, hpad, h₃⟩ := bind_eq_ok.1 h₂
    obtain ⟨rfl, hplt⟩ := nextU16_ok hpad
    cases pure_eq_ok.1 h₃
    exact ⟨.invokedynamic i pad0, by simp [JvmsInsn.encode], ⟨hlt, hplt⟩, ⟨e, hcp, hkind⟩, rfl⟩
  case h_11 =>
    obtain ⟨a, bs₁, ha, h₁⟩ := bind_eq_ok.1 h
    obtain ⟨rfl, hlt⟩ := nextU8_ok ha
    cases hk : parseAtype a with
    | none =>
      rw [hk] at h₁
      exact absurd h₁ throw_ne_ok
    | some k =>
      rw [hk] at h₁
      cases pure_eq_ok.1 h₁
      exact ⟨.newarray a, by simp [JvmsInsn.encode], hlt, k, parseAtype_eq hk, rfl⟩
  case h_12 => exact parseWide_ok h
  case h_13 =>
    obtain ⟨i, bs₁, hi, h₁⟩ := bind_eq_ok.1 h
    obtain ⟨rfl, hlt⟩ := nextU16_ok hi
    obtain ⟨d, bs₂, hd, h₂⟩ := bind_eq_ok.1 h₁
    obtain ⟨rfl, hdlt⟩ := nextU8_ok hd
    obtain ⟨e, bs₃, he, h₃⟩ := bind_eq_ok.1 h₂
    obtain ⟨rfl, hcp, hkind⟩ := checkedCpEntry_ok he
    cases pure_eq_ok.1 h₃
    exact ⟨.multianewarray i d, by simp [JvmsInsn.encode], ⟨hlt, hdlt⟩, ⟨e, hcp, hkind⟩, rfl⟩
  case h_14 =>
    obtain ⟨o, bs₁, ho, h₁⟩ := bind_eq_ok.1 h
    obtain ⟨rfl, hfits⟩ := nextS32_ok ho
    obtain ⟨t, bs₂, ht, h₂⟩ := bind_eq_ok.1 h₁
    obtain ⟨rfl, hin⟩ := checkedPc_ok ht
    cases pure_eq_ok.1 h₂
    exact ⟨.wideBranch .goto o, by simp [JvmsInsn.encode, wideBranchOpcode, opcodeBytes],
      ⟨rfl, hfits⟩, t, hin, rfl⟩
  case h_15 =>
    obtain ⟨o, bs₁, ho, h₁⟩ := bind_eq_ok.1 h
    obtain ⟨rfl, hfits⟩ := nextS32_ok ho
    obtain ⟨t, bs₂, ht, h₂⟩ := bind_eq_ok.1 h₁
    obtain ⟨rfl, hin⟩ := checkedPc_ok ht
    cases pure_eq_ok.1 h₂
    exact ⟨.wideBranch .jsr o, by simp [JvmsInsn.encode, wideBranchOpcode, opcodeBytes],
      ⟨rfl, hfits⟩, t, hin, rfl⟩
  case h_16 => exact absurd h throw_ne_ok

/-- Every opcode that the parser accepts is that of an instruction of the specification, and the
parser consumes the bytes of this instruction. -/
theorem parseInsnImpl_ok (h : parseInsnImpl cp maxPc pc bs = .ok (r, rest)) :
    Parsed cp maxPc pc bs ⟨r.1, pc, r.2⟩ rest := by
  obtain ⟨op, bs₁, hop, h₁⟩ := bind_eq_ok.1 h
  obtain ⟨rfl, hlt⟩ := nextU8_ok hop
  clear h hop
  cases hplain : get plainInsns op with
  | some k =>
    simp only [hplain] at h₁
    cases pure_eq_ok.1 h₁
    have hopcode := plainInsns_opcode _ (mem_of_get hplain)
    refine ⟨.simple k, ?_, by simp [JvmsInsn.Valid, hopcode], rfl⟩
    simp [JvmsInsn.encode, hopcode, opcodeBytes]
  | none =>
  simp only [hplain] at h₁
  split at h₁
  · rename_i hrange
    cases pure_eq_ok.1 h₁
    refine ⟨.iconst ((op : ℤ) - 3), ?_, ?_, rfl⟩
    · have hn : (3 + ((op : ℤ) - 3)).toNat = op := by omega
      simp [JvmsInsn.encode, hn]
    · simp only [JvmsInsn.Valid]
      omega
  split at h₁
  · rename_i hrange
    cases pure_eq_ok.1 h₁
    refine ⟨.lconst (op - 9), ?_, by simp only [JvmsInsn.Valid]; omega, ?_⟩
    · have hn : 9 + (op - 9) = op := by omega
      simp [JvmsInsn.encode, hn]
    · have hn : ((op - 9 : ℕ) : ℤ) = (op : ℤ) - 9 := by omega
      simp only [JvmsInsn.Denotes, hn]
  split at h₁
  · rename_i hrange
    cases pure_eq_ok.1 h₁
    refine ⟨.fconst (op - 11), ?_, by simp only [JvmsInsn.Valid]; omega, rfl⟩
    have hn : 11 + (op - 11) = op := by omega
    simp [JvmsInsn.encode, hn]
  split at h₁
  · rename_i hrange
    cases pure_eq_ok.1 h₁
    refine ⟨.dconst (op - 14), ?_, by simp only [JvmsInsn.Valid]; omega, rfl⟩
    have hn : 14 + (op - 14) = op := by omega
    simp [JvmsInsn.encode, hn]
  cases hlocal : get localInsns op with
  | some p =>
    obtain ⟨k, reason⟩ := p
    simp only [hlocal] at h₁
    have hopcode := localInsns_opcode _ (mem_of_get hlocal)
    obtain ⟨i, bs₂, hi, h₂⟩ := bind_eq_ok.1 h₁
    obtain ⟨rfl, hilt⟩ := nextU8_ok hi
    cases pure_eq_ok.1 h₂
    refine ⟨.localVar k i, ?_, ⟨by rw [hopcode]; rfl, hilt⟩, rfl⟩
    simp [JvmsInsn.encode, hopcode, opcodeBytes]
  | none =>
  simp only [hlocal] at h₁
  cases hshort : shortLocals.find? fun p => p.1 ≤ op ∧ op < p.1 + 4 with
  | some p =>
    obtain ⟨first, k⟩ := p
    simp only [hshort] at h₁
    have hopcode := shortLocals_opcode _ (mem_of_find?_eq_some hshort)
    have hrange : first ≤ op ∧ op < first + 4 := by simpa using find?_some hshort
    cases pure_eq_ok.1 h₁
    refine ⟨.shortLocal k (op - first), ?_, ⟨by rw [hopcode]; rfl, by omega⟩, rfl⟩
    have hn : first + (op - first) = op := by omega
    simp [JvmsInsn.encode, hopcode, opcodeBytes, hn]
  | none =>
  simp only [hshort] at h₁
  cases hbranch : get branchInsns op with
  | some p =>
    obtain ⟨k, reason⟩ := p
    simp only [hbranch] at h₁
    have hopcode := branchInsns_opcode _ (mem_of_get hbranch)
    obtain ⟨o, bs₂, ho, h₂⟩ := bind_eq_ok.1 h₁
    obtain ⟨rfl, hfits⟩ := nextS16_ok ho
    obtain ⟨t, bs₃, ht, h₃⟩ := bind_eq_ok.1 h₂
    obtain ⟨rfl, hin⟩ := checkedPc_ok ht
    cases pure_eq_ok.1 h₃
    refine ⟨.branch k o, ?_, ⟨by rw [hopcode]; rfl, hfits⟩, t, hin, rfl⟩
    simp [JvmsInsn.encode, hopcode, opcodeBytes]
  | none =>
  simp only [hbranch] at h₁
  cases hcp : get cpInsns op with
  | some p =>
    obtain ⟨k, expected, reading, checking⟩ := p
    simp only [hcp] at h₁
    obtain ⟨hopcode, hkinds⟩ := cpInsns_opcode _ (mem_of_get hcp)
    obtain ⟨i, bs₂, hi, h₂⟩ := bind_eq_ok.1 h₁
    obtain ⟨rfl, hilt⟩ := nextU16_ok hi
    obtain ⟨e, bs₃, he, h₃⟩ := bind_eq_ok.1 h₂
    obtain ⟨rfl, hent, hkind⟩ := checkedCpEntry_ok he
    cases pure_eq_ok.1 h₃
    refine ⟨.member k i, ?_, ⟨by rw [hopcode]; rfl, hilt⟩, ⟨e, hent, ?_⟩, rfl⟩
    · simp [JvmsInsn.encode, hopcode, opcodeBytes]
    · rw [hkinds]
      exact hkind
  | none =>
  simp only [hcp] at h₁
  exact parseSpecial_ok h₁

theorem parseInsn_ok {b : BytecodeInsn} (h : parseInsn cp maxPc pc bs = .ok (b, rest)) :
    Parsed cp maxPc pc bs b rest := by
  obtain ⟨⟨k, o⟩, bs₁, hr, h₁⟩ := bind_eq_ok.1 h
  cases pure_eq_ok.1 h₁
  exact parseInsnImpl_ok hr

theorem JvmsInsn.encode_length_pos {j : JvmsInsn} (h : j.Valid pc) : 0 < j.encode.length := by
  have hopcode : ∀ o : Option ℕ, o.isSome → (opcodeBytes o).length = 1 := by
    intro o ho
    obtain ⟨n, rfl⟩ := Option.isSome_iff_exists.1 ho
    simp [opcodeBytes]
  cases j with
  | simple k => simp [encode, hopcode _ h]
  | shortLocal k i =>
    have hk : ((shortLocalOpcode k).map (· + i)).isSome := by simpa using h.1
    simp [encode, hopcode _ hk]
  | _ => simp [encode]; try omega

/-- The loop over the code bytes. -/
theorem parseInsns_ok {fuel : ℕ} {s s' : CodeState} (hfuel : bs.length ≤ fuel)
    (hmax : bs.length ≤ maxPc) (h : parseInsns cp maxPc fuel bs s = .ok s') :
    ∃ js new, bs = js.flatMap JvmsInsn.encode ∧ ValidFrom (maxPc - bs.length) js ∧
      s'.code = s.code ++ new ∧
      List.Forall₂ (fun p b => JvmsInsn.Denotes acceptedKinds cp (InCode maxPc) p.1 b p.2)
        ((startsFrom (maxPc - bs.length) js).zip js) new ∧
      ∀ p i, s'.pcToInsn p = some i → s.pcToInsn p = some i ∨
        ∃ t, i = s.code.length + t ∧ (startsFrom (maxPc - bs.length) js)[t]? = some p := by
  induction fuel generalizing bs s with
  | zero =>
    obtain rfl := eq_nil_of_length_eq_zero (Nat.le_zero.1 hfuel)
    cases h
    exact ⟨[], [], rfl, trivial, by simp, .nil, fun p i hp => .inl hp⟩
  | succ fuel ih =>
    cases bs with
    | nil =>
      cases h
      exact ⟨[], [], rfl, trivial, by simp, .nil, fun p i hp => .inl hp⟩
    | cons b bs =>
      simp only [parseInsns] at h
      generalize hpc : maxPc - (b :: bs).length = pc at h
      split at h
      · simp at h
      · rename_i insn rest hinsn
        obtain ⟨j, hbs, hvalid, hden⟩ := parseInsn_ok hinsn
        have hpos := JvmsInsn.encode_length_pos hvalid
        have hlen : (b :: bs).length = j.encode.length + rest.length := by
          rw [hbs, length_append]
        obtain ⟨js, new, rfl, hvalids, hcode, hdens, hpcs⟩ := ih (by omega) (by omega) h
        have hnext : maxPc - (js.flatMap JvmsInsn.encode).length = pc + j.encode.length := by omega
        rw [hnext] at hvalids hdens hpcs
        refine ⟨j :: js, insn :: new, by rw [hbs]; rfl, ⟨hvalid, hvalids⟩, ?_, .cons hden hdens, ?_⟩
        · rw [hcode]
          simp
        · intro p i hp
          obtain hp | ⟨t, hi, ht⟩ := hpcs p i hp
          · change Function.update s.pcToInsn pc (some s.code.length) p = some i at hp
            by_cases hpp : p = pc
            · subst hpp
              rw [Function.update_self] at hp
              exact .inr ⟨0, (Option.some.inj hp).symm, rfl⟩
            · rw [Function.update_of_ne hpp] at hp
              exact .inl hp
          · refine .inr ⟨t + 1, ?_, ht⟩
            rw [hi]
            simp
            omega

variable {k : InsnKind}

theorem localOpcode_hasTarget (h : (localOpcode k).isSome) : k.hasTarget = false := by
  unfold localOpcode at h
  split at h <;> first | rfl | simp at h

theorem shortLocalOpcode_hasTarget (h : (shortLocalOpcode k).isSome) : k.hasTarget = false := by
  unfold shortLocalOpcode at h
  split at h <;> first | rfl | simp at h

theorem branchOpcode_hasTarget (h : (branchOpcode k).isSome) : k.hasTarget = true := by
  unfold branchOpcode at h
  split at h <;> first | rfl | simp at h

theorem wideBranchOpcode_hasTarget (h : (wideBranchOpcode k).isSome) : k.hasTarget = true := by
  unfold wideBranchOpcode at h
  split at h <;> first | rfl | simp at h

section Translation

variable {pcToInsn : ℕ → Option ℕ} {starts : List ℕ}

theorem convertPcToInsn_ok {p i : ℕ} (h : convertPcToInsn pcToInsn p = .ok i) :
    pcToInsn p = some i := by
  unfold convertPcToInsn at h
  split at h
  · rename_i j hj
    cases h
    exact hj
  · simp at h

variable (hstarts : ∀ p i, pcToInsn p = some i → starts[i]? = some p)

include hstarts

theorem startsAt_convert {p : ℤ} {t i : ℕ} (hin : InCode maxPc p t)
    (h : convertPcToInsn pcToInsn t = .ok i) : StartsAt starts p i :=
  ⟨t, hstarts t i (convertPcToInsn_ok h), hin.1⟩

theorem forall_startsAt_convert {α : Type} {pos : α → ℤ} {xs : List α} {ts is : List ℕ}
    (hin : List.Forall₂ (fun x t => InCode maxPc (pos x) t) xs ts)
    (h : ts.mapM (convertPcToInsn pcToInsn) = .ok is) :
    List.Forall₂ (fun x i => StartsAt starts (pos x) i) xs is := by
  have hconv := Outcome.mapM_ok h
  clear h
  induction hin generalizing is with
  | nil =>
    cases hconv
    exact .nil
  | cons hx _ ih =>
    obtain _ | ⟨hi, his⟩ := hconv
    exact .cons (startsAt_convert hstarts hx hi) (ih his)

variable {b' : BytecodeInsn}

theorem convertInsn_branch {k : InsnKind} {p : ℤ}
    (hk : k.hasTarget = true) {t : ℕ} (hin : InCode maxPc p t)
    (h : convertInsn pcToInsn ⟨k, pc, .index t⟩ = .ok b') :
    ∃ t, StartsAt starts p t ∧ b' = ⟨k, pc, .index t⟩ := by
  simp only [convertInsn, hk, if_true] at h
  cases ht : convertPcToInsn pcToInsn t with
  | error e => simp [ht, bind, Except.bind] at h
  | ok i =>
    simp only [ht, bind, Except.bind, pure, Except.pure, Except.ok.injEq] at h
    exact ⟨i, startsAt_convert hstarts hin ht, h.symm⟩

omit hstarts in
theorem convertInsn_local {k : InsnKind} {i : ℕ}
    (hk : k.hasTarget = false) (h : convertInsn pcToInsn ⟨k, pc, .index i⟩ = .ok b') :
    b' = ⟨k, pc, .index i⟩ := by
  simp only [convertInsn, hk, Bool.false_eq_true, if_false] at h
  exact (Except.ok.inj h).symm

theorem convertSwitch_ok {α : Type} {pos : α → ℤ} {xs : List α} {d : ℤ} {dt : ℕ} {ts : List ℕ}
    {switch : ℕ → List ℕ → BytecodeInsn} (hd : InCode maxPc d dt)
    (hts : List.Forall₂ (fun x t => InCode maxPc (pos x) t) xs ts)
    (h : (do
      let di ← convertPcToInsn pcToInsn dt
      let is ← ts.mapM (convertPcToInsn pcToInsn)
      pure (switch di is)) = Except.ok b') :
    ∃ di is, StartsAt starts d di ∧ List.Forall₂ (fun x i => StartsAt starts (pos x) i) xs is ∧
      b' = switch di is := by
  obtain ⟨di, hdt, h⟩ := Outcome.bind_eq_ok.mp h
  obtain ⟨is, htis, h⟩ := Outcome.bind_eq_ok.mp h
  cases h
  exact ⟨di, is, startsAt_convert hstarts hd hdt, forall_startsAt_convert hstarts hts htis, rfl⟩

/-- The translation of an instruction replaces every byte position by the index of the instruction
there. -/
theorem convertInsn_ok {kinds : InsnKind → List CpKind} {j : JvmsInsn} {b : BytecodeInsn}
    (hvalid : j.Valid pc) (hden : j.Denotes kinds cp (InCode maxPc) pc b)
    (h : convertInsn pcToInsn b = .ok b') : j.Denotes kinds cp (StartsAt starts) pc b' := by
  cases j with
  | simple | iconst | lconst | fconst | dconst | bipush | sipush | iinc | wideIinc =>
    obtain rfl := hden
    exact (Except.ok.inj h).symm
  | ldc i | ldcW i =>
    obtain ⟨v, hcp, rfl⟩ | ⟨f, hcp, rfl⟩ | ⟨href, rfl⟩ := hden
    · exact .inl ⟨v, hcp, (Except.ok.inj h).symm⟩
    · exact .inr (.inl ⟨f, hcp, (Except.ok.inj h).symm⟩)
    · exact .inr (.inr ⟨href, (Except.ok.inj h).symm⟩)
  | ldc2W i =>
    obtain ⟨v, hcp, rfl⟩ | ⟨d, hcp, rfl⟩ := hden
    · exact .inl ⟨v, hcp, (Except.ok.inj h).symm⟩
    · exact .inr ⟨d, hcp, (Except.ok.inj h).symm⟩
  | localVar k i | wideLocal k i =>
    obtain rfl := hden
    exact convertInsn_local (localOpcode_hasTarget hvalid.1) h
  | shortLocal k i =>
    obtain rfl := hden
    exact convertInsn_local (shortLocalOpcode_hasTarget hvalid.1) h
  | branch k o =>
    obtain ⟨t, hin, rfl⟩ := hden
    exact convertInsn_branch hstarts (branchOpcode_hasTarget hvalid.1) hin h
  | wideBranch k o =>
    obtain ⟨t, hin, rfl⟩ := hden
    exact convertInsn_branch hstarts (wideBranchOpcode_hasTarget hvalid.1) hin h
  | tableswitch pad d low high offsets | lookupswitch pad d pairs =>
    obtain ⟨dt, ts, hd, hts, rfl⟩ := hden
    exact convertSwitch_ok hstarts hd hts h
  | member | invokeinterface | invokedynamic | multianewarray =>
    obtain ⟨href, rfl⟩ := hden
    exact ⟨href, (Except.ok.inj h).symm⟩
  | newarray a =>
    obtain ⟨k, hk, rfl⟩ := hden
    exact ⟨k, hk, (Except.ok.inj h).symm⟩

/-- One entry of the exception table. -/
theorem parseExceptionEntry_ok {codeLength : ℕ} {e : ExceptionTableEntry}
    (h : parseExceptionEntry cp codeLength pcToInsn bs = .ok (e, rest)) :
    ∃ x : JvmsException, bs = x.encode ++ rest ∧ x.Denotes cp starts codeLength codeLength e := by
  obtain ⟨startPc, bs₁, hstart, h₁⟩ := bind_eq_ok.1 h
  obtain ⟨rfl, hstartlt⟩ := nextU16_ok hstart
  obtain ⟨endPc, bs₂, hend, h₂⟩ := bind_eq_ok.1 h₁
  obtain ⟨rfl, hendlt⟩ := nextU16_ok hend
  obtain ⟨handlerPc, bs₃, hhandler, h₃⟩ := bind_eq_ok.1 h₂
  obtain ⟨rfl, hhandlerlt⟩ := nextU16_ok hhandler
  obtain ⟨catchType, bs₄, hcatch, h₄⟩ := bind_eq_ok.1 h₃
  obtain ⟨rfl, hcatchlt⟩ := nextU16_ok hcatch
  split at h₄
  · exact absurd h₄ throw_ne_ok
  rename_i hbounds
  split at h₄
  · exact absurd h₄ throw_ne_ok
  rename_i horder
  obtain ⟨si, bs₅, hsi, h₅⟩ := bind_eq_ok.1 h₄
  obtain ⟨hsi, rfl⟩ := ofExcept_eq_ok.1 hsi
  obtain ⟨ei, bs₆, hei, h₆⟩ := bind_eq_ok.1 h₅
  obtain ⟨hei, rfl⟩ := ofExcept_eq_ok.1 hei
  obtain ⟨hi, bs₇, hhi, h₇⟩ := bind_eq_ok.1 h₆
  obtain ⟨hhi, rfl⟩ := ofExcept_eq_ok.1 hhi
  have hat : ∀ {p i : ℕ}, convertPcToInsn pcToInsn p = .ok i → StartsAt starts p i :=
    fun {p i} hc => ⟨p, hstarts p i (convertPcToInsn_ok hc), rfl⟩
  have hendat : StartsAt starts endPc ei ∨ endPc = codeLength ∧ ei = codeLength := by
    split at hei
    · rename_i heq
      exact .inr ⟨heq, (Except.ok.inj hei).symm⟩
    · exact .inl (hat hei)
  have hvalid : JvmsException.Valid codeLength ⟨startPc, endPc, handlerPc, catchType⟩ := by
    simp only [JvmsException.Valid]
    omega
  refine ⟨⟨startPc, endPc, handlerPc, catchType⟩, ?_⟩
  split at h₇
  · rename_i hzero
    cases pure_eq_ok.1 h₇
    exact ⟨by simp [JvmsException.encode], hvalid, hat hsi, hendat, hat hhi, .inl ⟨hzero, rfl⟩⟩
  · obtain ⟨c, bs₈, hc, h₈⟩ := bind_eq_ok.1 h₇
    obtain ⟨rfl, hcp, hkind⟩ := checkedCpEntry_ok hc
    cases pure_eq_ok.1 h₈
    exact ⟨by simp [JvmsException.encode], hvalid, hat hsi, hendat, hat hhi,
      .inr ⟨⟨c, hcp, by simpa using hkind⟩, rfl⟩⟩

theorem parseExceptionTable_ok {codeLength n : ℕ} {es : List ExceptionTableEntry}
    (h : parseExceptionTable cp codeLength pcToInsn n bs = .ok (es, rest)) :
    ∃ xs : List JvmsException, bs = xs.flatMap JvmsException.encode ++ rest ∧ xs.length = n ∧
      List.Forall₂ (JvmsException.Denotes cp starts codeLength codeLength) xs es := by
  induction n generalizing bs es with
  | zero =>
    cases pure_eq_ok.1 h
    exact ⟨[], rfl, rfl, .nil⟩
  | succ n ih =>
    obtain ⟨e, bs₁, he, h₁⟩ := bind_eq_ok.1 h
    obtain ⟨x, rfl, hx⟩ := parseExceptionEntry_ok hstarts he
    obtain ⟨es', bs₂, hes, h₂⟩ := bind_eq_ok.1 h₁
    cases pure_eq_ok.1 h₂
    obtain ⟨xs, rfl, hlen, hxs⟩ := ih hes
    exact ⟨x :: xs, by simp, by simp [hlen], .cons hx hxs⟩

end Translation

theorem length_startsFrom (pc : ℕ) (js : List JvmsInsn) :
    (startsFrom pc js).length = js.length := by
  induction js generalizing pc with
  | nil => rfl
  | cons j js ih => simp [startsFrom, ih]

theorem length_le_encode {pc : ℕ} {js : List JvmsInsn} (h : ValidFrom pc js) :
    js.length ≤ (js.flatMap JvmsInsn.encode).length := by
  induction js generalizing pc with
  | nil => simp
  | cons j js ih =>
    have := JvmsInsn.encode_length_pos h.1
    have := ih h.2
    simp only [length_cons, flatMap_cons, length_append]
    omega

theorem ValidFrom.valid {pc : ℕ} {js : List JvmsInsn} (h : ValidFrom pc js) :
    ∀ p ∈ (startsFrom pc js).zip js, p.2.Valid p.1 := by
  induction js generalizing pc with
  | nil => simp [startsFrom]
  | cons j js ih =>
    intro p hp
    obtain rfl | hp := mem_cons.1 hp
    · exact h.1
    · exact ih h.2 p hp

theorem convertInsns_ok {pcToInsn : ℕ → Option ℕ} {starts : List ℕ}
    (hstarts : ∀ p i, pcToInsn p = some i → starts[i]? = some p) {ps : List (ℕ × JvmsInsn)}
    {parsed code : List BytecodeInsn} (hvalid : ∀ p ∈ ps, p.2.Valid p.1)
    (hden : List.Forall₂ (fun p b => p.2.Denotes acceptedKinds cp (InCode maxPc) p.1 b) ps parsed)
    (h : parsed.mapM (convertInsn pcToInsn) = .ok code) :
    List.Forall₂ (fun p b => p.2.Denotes acceptedKinds cp (StartsAt starts) p.1 b) ps code := by
  have hconv := Outcome.mapM_ok h
  clear h
  induction hden generalizing code with
  | nil =>
    cases hconv
    exact .nil
  | cons hp _ ih =>
    obtain _ | ⟨hb, hbs⟩ := hconv
    refine .cons (convertInsn_ok hstarts (hvalid _ mem_cons_self) hp hb) (ih ?_ hbs)
    exact fun q hq => hvalid q (mem_cons_of_mem _ hq)

section Attributes

variable {α : Type} {parseAttribute : ParseCtx → CodeParser (α × ParseCtx)}

/-- Whatever the parser accepts as a `Code` attribute is the encoding of an instruction sequence with
an exception table. The decoded instructions are those of the sequence in order, their targets and
the positions of the exception table are the indices of the instructions that start there, and the
constants have a kind that the parser accepts for the opcode. A range that ends with the code ends
at `code_length`, behind the last instruction. -/
theorem parseCodeAttribute_denotes {memory : Bool} {ctx ctx' : ParseCtx} {c : ParsedCode α}
    (h : parseCodeAttribute parseAttribute memory ctx bs = .ok ((c, ctx'), rest)) :
    ∃ js xs tail, bs = codeAttributeBytes c.maxStack c.maxLocals js xs ++ tail ∧
      (js.flatMap JvmsInsn.encode).length ≤ 65535 ∧
      CodeDenotes acceptedKinds ctx.cp (js.flatMap JvmsInsn.encode).length js xs c.code
        c.exceptionTable ∧
      c.code.length ≤ (js.flatMap JvmsInsn.encode).length := by
  obtain ⟨maxStack, bs₁, hstack, h₁⟩ := bind_eq_ok.1 h
  obtain ⟨rfl, -⟩ := nextU16_ok hstack
  obtain ⟨maxLocals, bs₂, hlocals, h₂⟩ := bind_eq_ok.1 h₁
  obtain ⟨rfl, -⟩ := nextU16_ok hlocals
  obtain ⟨codeLength, bs₃, hlength, h₃⟩ := bind_eq_ok.1 h₂
  obtain ⟨rfl, -⟩ := next_ok hlength
  split at h₃
  · exact absurd h₃ throw_ne_ok
  rename_i hbounds
  obtain ⟨codeBytes, bs₄, hslice, h₄⟩ := bind_eq_ok.1 h₃
  obtain ⟨rfl, hcodeLength⟩ := slice_ok hslice
  split at h₄
  swap
  · exact absurd h₄ throw_ne_ok
  obtain ⟨s, bs₅, hparse, h₅⟩ := bind_eq_ok.1 h₄
  obtain ⟨hparse, rfl⟩ := ofExcept_eq_ok.1 hparse
  obtain ⟨code, bs₆, hconv, h₆⟩ := bind_eq_ok.1 h₅
  obtain ⟨hconv, rfl⟩ := ofExcept_eq_ok.1 hconv
  obtain ⟨n, bs₇, hn, h₇⟩ := bind_eq_ok.1 h₆
  obtain ⟨rfl, -⟩ := nextU16_ok hn
  obtain ⟨table, bs₈, htable, h₈⟩ := bind_eq_ok.1 h₇
  obtain ⟨m, bs₉, hm, h₉⟩ := bind_eq_ok.1 h₈
  obtain ⟨⟨as, ctx''⟩, bs₁₀, has, h₁₀⟩ := bind_eq_ok.1 h₉
  obtain ⟨hr, rfl⟩ := Prod.mk.inj (pure_eq_ok.1 h₁₀)
  cases hr
  obtain ⟨js, new, rfl, hvalid, hcode, hden, hpcs⟩ :=
    parseInsns_ok (Nat.le_of_eq hcodeLength) (Nat.le_of_eq hcodeLength) hparse
  rw [hcodeLength, Nat.sub_self] at hvalid hden hpcs
  have hstarts : ∀ p i, s.pcToInsn p = some i → (startsFrom 0 js)[i]? = some p := by
    intro p i hp
    obtain hp | ⟨t, rfl, ht⟩ := hpcs p i hp
    · simp at hp
    · simpa using ht
  obtain ⟨xs, rfl, hxs, hexc⟩ := parseExceptionTable_ok hstarts htable
  simp only [nil_append] at hcode
  rw [hcode] at hconv
  have hinsns := convertInsns_ok hstarts hvalid.valid hden hconv
  have hcount : code.length = js.length := by
    rw [← hinsns.length_eq, length_zip, length_startsFrom, Nat.min_self]
  refine ⟨js, xs, bs₈, ?_, by omega, ?_, ?_⟩
  · simp [codeAttributeBytes, hxs, hcodeLength]
  · rw [hcodeLength]
    exact ⟨hvalid, hinsns, hcount, by rw [hcodeLength]; exact hexc⟩
  · show code.length ≤ _
    rw [hcount]
    exact length_le_encode hvalid

end Attributes

/-- `iload_0`, `ifeq` over the next instruction, `bipush 42` and `ireturn`, all of it in the range of
a handler at the end. -/
def conditionalReturn : List UInt8 :=
  [0, 1, 0, 1, 0, 0, 0, 7, 0x1a, 0x99, 0, 5, 0x10, 42, 0xac, 0, 1, 0, 0, 0, 7, 0, 6, 0, 0, 0, 0]

def noAttributes (_ : ParseCtx) : CodeParser (Unit × ParseCtx) :=
  throw (.text "attribute")

def conditionalReturnCode : ParsedCode Unit where
  maxStack := 1
  maxLocals := 1
  maxFormalPc := 7
  code := [⟨.iload, 0, .index 0⟩, ⟨.ifeq, 1, .index 3⟩, ⟨.iconst, 4, .integerImm 42⟩,
    ⟨.ireturn, 6, .none⟩]
  exceptionTable := [⟨⟨0, 7, 3⟩, none⟩]
  attributes := []

theorem parse_conditionalReturn :
    parseCodeAttribute noAttributes true ⟨[], 0⟩ conditionalReturn =
      .ok ((conditionalReturnCode, ⟨[], 7⟩), []) := by decide +kernel

theorem parseCodeAttribute_denotes_branch :
    parseCodeAttribute noAttributes true ⟨[], 0⟩ conditionalReturn =
        .ok ((conditionalReturnCode, ⟨[], 7⟩), []) ∧
      ∃ js xs tail, conditionalReturn =
          codeAttributeBytes conditionalReturnCode.maxStack conditionalReturnCode.maxLocals js xs ++
            tail ∧
        (js.flatMap JvmsInsn.encode).length ≤ 65535 ∧
        CodeDenotes acceptedKinds (⟨[], 0⟩ : ParseCtx).cp (js.flatMap JvmsInsn.encode).length js xs
          conditionalReturnCode.code conditionalReturnCode.exceptionTable ∧
        conditionalReturnCode.code.length ≤ (js.flatMap JvmsInsn.encode).length := by
  have hparse := parse_conditionalReturn
  have hden := parseCodeAttribute_denotes hparse
  exact ⟨hparse, hden⟩

/-- The range that ends with the code does not end at the number of instructions. -/
theorem parseCodeAttribute_rangeEnd :
    ¬ ∀ (ctx ctx' : ParseCtx) (bs rest : List UInt8) (c : ParsedCode Unit),
      parseCodeAttribute noAttributes true ctx bs = .ok ((c, ctx'), rest) →
      ∃ js xs tail, bs = codeAttributeBytes c.maxStack c.maxLocals js xs ++ tail ∧
        CodeDenotes jvmsKinds ctx.cp c.code.length js xs c.code c.exceptionTable := by
  intro h
  obtain ⟨js, xs, tail, -, hden⟩ := h _ _ _ _ _ parse_conditionalReturn
  have hjs : js.length = 4 := hden.count.symm
  obtain _ | ⟨⟨-, -, hend, -⟩, -⟩ := hden.exceptions
  obtain ⟨n, hn, -⟩ | ⟨-, hend⟩ := hend
  · have hlt := (List.getElem?_eq_some_iff.1 hn).1
    rw [length_startsFrom, hjs] at hlt
    simp at hlt
  · simp [conditionalReturnCode] at hend

end TraceJvm
