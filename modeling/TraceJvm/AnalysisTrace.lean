import TraceJvm.AnalysisTyping

/-! The single pass of the analysis of a method with a stack map table. Every instruction is
analysed in the frame declared for it, or else in the state that the instruction before it
leaves. -/
namespace TraceJvm

open List

theorem StackMapFrame.encode_ne_nil (f : StackMapFrame) : f.encode ≠ [] := by
  cases f <;> simp [StackMapFrame.encode]

def encodeFrames (fs : List StackMapFrame) : List UInt8 := fs.flatMap StackMapFrame.encode

theorem encodeFrames_isEmpty (fs : List StackMapFrame) :
    (encodeFrames fs).isEmpty = fs.isEmpty := by
  cases fs with
  | nil => rfl
  | cons f fs =>
    have hne : encodeFrames (f :: fs) ≠ [] := by
      simp [encodeFrames, f.encode_ne_nil]
    simpa using hne

/-- The iterator stands at a frame, with the encoding of others before it. -/
structure FrameIterator.At (it : FrameIterator) (first : Bool) (d : DeclaredFrame)
    (fs : List StackMapFrame) : Prop where
  pc : it.pc = d.pc
  stack : it.stack = d.stack
  locals : it.locals = localSlots d.locals
  table : it.table = encodeFrames fs
  hasNext : it.hasNext = !fs.isEmpty
  isFirst : it.isFirst = first

variable {d : DeclaredFrame} {fs : List StackMapFrame}

variable {first : Bool}

theorem FrameIterator.At.next {it it' : FrameIterator}
    {f : StackMapFrame} {ds : List DeclaredFrame} {maxStack maxLocals : ℕ}
    (h : it.At first d (f :: fs)) (hd : expandFrames first d (f :: fs) = some ds)
    (hnext : it.next maxStack maxLocals = .ok it') :
    ∃ d' ds', ds = d' :: ds' ∧ it'.At false d' fs ∧ expandFrames false d' fs = some ds' := by
  simp only [expandFrames, bind, Option.bind_eq_some_iff] at hd
  obtain ⟨⟨ls, st⟩, happ, ds', hds', heq⟩ := hd
  have htable : it.table = f.encode ++ encodeFrames fs := by
    rw [h.table]
    simp [encodeFrames]
  have hstand := next_encode f h.locals htable happ hnext
  obtain ⟨hpc, hst, hls, htab, hhas, hfirst⟩ := hstand
  cases heq
  refine ⟨_, _, rfl, ⟨?_, hst, hls, htab, ?_, hfirst⟩, hds'⟩
  · rw [hpc, h.isFirst, h.pc]
  · rw [hhas, encodeFrames_isEmpty]

structure FrameExact (swizzle : List ℕ) (c : AnalysisCtx) (f : KindFrame) : Prop where
  stack : c.stack = f.stack
  locals : ∀ s j : ℕ, swizzle[s]? = some j → c.locals[j]? = some (f.locals s)

theorem map_snd_zip_sublist {α β : Type*} (l : List α) (m : List β) :
    ((l.zip m).map Prod.snd).Sublist m := by
  induction l generalizing m with
  | nil => simp
  | cons a l ih =>
    cases m with
    | nil => simp
    | cons b m => simpa using (ih m).cons_cons b

theorem foldl_set_length {α : Type*} (ps : List (α × ℕ)) (l : List α) :
    (ps.foldl (fun l p => l.set p.2 p.1) l).length = l.length := by
  induction ps generalizing l with
  | nil => rfl
  | cons p ps ih => rw [foldl_cons, ih, length_set]

theorem foldl_set_of_notMem {α : Type*} {ps : List (α × ℕ)} {l : List α} {j : ℕ}
    (h : ∀ p ∈ ps, p.2 ≠ j) : (ps.foldl (fun l p => l.set p.2 p.1) l)[j]? = l[j]? := by
  induction ps generalizing l with
  | nil => rfl
  | cons p ps ih =>
    rw [foldl_cons, ih fun q hq => h q (by simp [hq]), getElem?_set_ne (h p (by simp))]

theorem foldl_set_of_mem {α : Type*} {ps : List (α × ℕ)} {l : List α} {p : α × ℕ}
    (hp : p ∈ ps) (hn : (ps.map Prod.snd).Nodup) (hlt : p.2 < l.length) :
    (ps.foldl (fun l p => l.set p.2 p.1) l)[p.2]? = some p.1 := by
  induction ps generalizing l with
  | nil => simp at hp
  | cons q ps ih =>
    simp only [map_cons, nodup_cons, mem_map, not_exists, not_and] at hn
    rw [foldl_cons]
    rcases mem_cons.mp hp with rfl | hp
    · rw [foldl_set_of_notMem fun r hr => hn.1 r hr]
      simp [hlt]
    · exact ih hp hn.2 (by simpa using hlt)

/-- The kinds that `use_stack_map_frame` installs, local slot by local slot. -/
def KindFrame.ofIterator (it : FrameIterator) : KindFrame where
  stack := (it.stack.map ValidationKind.representation).reverse
  locals s := ((it.locals[s]?).map fun v => v.kind.representation).getD .void

variable {it : FrameIterator}

theorem FrameIterator.At.ofIterator (h : it.At first d fs) : KindFrame.ofIterator it =
    .ofDeclared d := by
  rw [KindFrame.ofIterator, KindFrame.ofDeclared, h.stack, h.locals]

variable {env : AnalysisEnv}

variable {c : AnalysisCtx}

theorem useStackMapFrame_ofIterator
    (hz : Swizzles env.maxLocals env.swizzle) (hlen : c.locals.length = env.maxLocals) :
    FrameExact env.swizzle (c.useStackMapFrame env it) (.ofIterator it) ∧
      (c.useStackMapFrame env it).locals.length = env.maxLocals := by
  have hmap : (c.useStackMapFrame env it).locals =
      ((it.locals.zip env.swizzle).map fun p => (p.1.kind.representation, p.2)).foldl
        (fun l p => l.set p.2 p.1) (List.replicate c.locals.length .void) := by
    rw [foldl_map]
    rfl
  have hsnd : (((it.locals.zip env.swizzle).map fun p =>
      (p.1.kind.representation, p.2)).map Prod.snd).Nodup := by
    rw [map_map]
    change ((it.locals.zip env.swizzle).map Prod.snd).Nodup
    exact hz.nodup.sublist (map_snd_zip_sublist _ _)
  refine ⟨⟨rfl, ?_⟩, ?_⟩
  · intro s j hs
    have hj := (hz.get_lt hs).2
    rw [hmap]
    simp only [KindFrame.ofIterator]
    cases hv : it.locals[s]? with
    | some v =>
      have hmem : (v.kind.representation, j) ∈
          (it.locals.zip env.swizzle).map fun p => (p.1.kind.representation, p.2) := by
        refine mem_map.mpr ⟨(v, j), ?_, rfl⟩
        exact mem_of_getElem? (i := s) (by simp [getElem?_zip_eq_some, hv, hs])
      exact foldl_set_of_mem hmem hsnd (by simp [hlen, hj])
    | none =>
      rw [foldl_set_of_notMem]
      · simp [hlen, hj]
      · intro p hp hpj
        obtain ⟨q, hq, rfl⟩ := mem_map.mp hp
        obtain ⟨t, ht⟩ := getElem?_of_mem hq
        rw [getElem?_zip_eq_some] at ht
        obtain rfl : s = t := hz.get_inj hs (hpj ▸ ht.2)
        rw [hv] at ht
        cases ht.1
  · rw [hmap, foldl_set_length, length_replicate, hlen]

theorem useStackMapFrame_exact
    (hz : Swizzles env.maxLocals env.swizzle) (hlen : c.locals.length = env.maxLocals)
    (h : it.At first d fs) : FrameExact env.swizzle (c.useStackMapFrame env it) (.ofDeclared d) ∧
      (c.useStackMapFrame env it).locals.length = env.maxLocals := by
  rw [← h.ofIterator]
  exact useStackMapFrame_ofIterator hz hlen

/-- What the pass relies on about the declared frames: they stand at instructions, in order. -/
structure FramesOrdered (code : List Instruction) (all : List DeclaredFrame) : Prop where
  sorted : all.Pairwise fun d e => d.pc < e.pc
  boundaries : ∀ d ∈ all, ∃ insn ∈ code, insn.originalPc = d.pc

/-- The iterator before instruction `i`: it stands at the first declared frame whose pc has not
been passed, or all frames have been. -/
structure IterInv (code : List Instruction) (all : List DeclaredFrame) (it : FrameIterator)
    (i : ℕ) : Prop where
  pending : ∃ bound first d fs ds,
    (∀ (j : ℕ) insn, code[j]? = some insn → (insn.originalPc < bound ↔ j < i)) ∧
    it.At first d fs ∧ expandFrames first d fs = some ds ∧
    (all.filter (fun x => bound ≤ x.pc) = d :: ds ∨
      all.filter (fun x => bound ≤ x.pc) = [] ∧ fs = [] ∧ d.pc < bound)

variable {all : List DeclaredFrame}

theorem eq_of_pc_eq
    (hs : all.Pairwise fun d e => d.pc < e.pc) {d e : DeclaredFrame} (hd : d ∈ all) (he : e ∈ all)
    (h : d.pc = e.pc) : d = e := by
  have hinj := List.Pairwise.forall_of_forall_of_flip (R := fun x y => x.pc = y.pc → x = y)
    (fun _ _ _ => rfl) (hs.imp fun hlt heq => by omega) (hs.imp fun hlt heq => by omega)
  exact hinj hd he h

variable {code : List Instruction} {insn : Instruction}

variable {i : ℕ}

theorem declaredAt_of_mem (hs : all.Pairwise fun d e => d.pc < e.pc)
    (hi : code[i]? = some insn) (hd : d ∈ all) (hpc : d.pc = insn.originalPc) :
    declaredAt code all i = some (.ofDeclared d) := by
  simp only [declaredAt, hi, Option.bind_some, Option.map_eq_some_iff]
  cases hf : all.find? fun d => d.pc = insn.originalPc with
  | none =>
    rw [find?_eq_none] at hf
    exact absurd hpc (by simpa using hf d hd)
  | some e =>
    have hpcs : e.pc = insn.originalPc := by simpa using find?_some hf
    obtain rfl := eq_of_pc_eq hs (mem_of_find?_eq_some hf) hd (hpcs.trans hpc.symm)
    exact ⟨e, rfl, rfl⟩

theorem declaredAt_eq_none (hi : code[i]? = some insn)
    (h : ∀ d ∈ all, d.pc ≠ insn.originalPc) : declaredAt code all i = none := by
  simp only [declaredAt, hi, Option.bind_some, Option.map_eq_none_iff, find?_eq_none,
    decide_eq_true_eq]
  exact h

/-- What `arrive` does before an instruction of a method with a table. -/
structure Arrived (env : AnalysisEnv) (code : List Instruction) (all : List DeclaredFrame) (i : ℕ)
    (s s' : PassState) : Prop where
  iter : IterInv code all s'.iter (i + 1)
  states : s'.states = s.states
  output : s'.code = s.code
  length : s'.ctx.locals.length = env.maxLocals
  declared : ∀ f, declaredAt code all i = some f → FrameExact env.swizzle s'.ctx f
  carried : declaredAt code all i = none → s'.ctx = s.ctx

theorem bound_succ
    (hlt : code.Pairwise fun a b => a.originalPc < b.originalPc) (hi : code[i]? = some insn)
    (j : ℕ) (insn' : Instruction) (hj : code[j]? = some insn') :
    insn'.originalPc < insn.originalPc + 1 ↔ j < i + 1 := by
  obtain ⟨hi', rfl⟩ := List.getElem?_eq_some_iff.mp hi
  obtain ⟨hj', rfl⟩ := List.getElem?_eq_some_iff.mp hj
  rw [pairwise_iff_getElem] at hlt
  constructor
  · intro h
    by_contra hij
    have := hlt i j hi' hj' (by omega)
    omega
  · intro h
    rcases Nat.lt_or_eq_of_le (Nat.le_of_lt_succ h) with hji | rfl
    · have := hlt j i hj' hi' hji
      omega
    · omega

/-- What the iterator does before the next instruction: it stands at the frame declared there and
moves on, or waits for a later one. -/
inductive IterStep (code : List Instruction) (all : List DeclaredFrame) (it : FrameIterator) (i : ℕ)
    (insn : Instruction) : Prop where
  | here (first : Bool) (d : DeclaredFrame) (fs : List StackMapFrame) (ds : List DeclaredFrame) :
      d ∈ all → insn.originalPc = d.pc → it.At first d fs → expandFrames first d fs = some ds →
      all.filter (fun x => insn.originalPc + 1 ≤ x.pc) = ds →
      (fs = [] → IterInv code all it (i + 1)) →
      (∀ d' fs' ds' it', ds = d' :: ds' → FrameIterator.At it' false d' fs' →
        expandFrames false d' fs' = some ds' → IterInv code all it' (i + 1)) →
      IterStep code all it i insn
  | later : insn.originalPc ≠ it.pc → (∀ d ∈ all, d.pc ≠ insn.originalPc) →
      IterInv code all it (i + 1) → IterStep code all it i insn

theorem IterInv.step {i : ℕ}
    (hlt : code.Pairwise fun a b => a.originalPc < b.originalPc) (ho : FramesOrdered code all)
    (hi : code[i]? = some insn) (hit : IterInv code all it i) : IterStep code all it i insn := by
  obtain ⟨bound, first, d, fs, ds, hbound, hat, hds, hpend⟩ := hit
  have hle : bound ≤ insn.originalPc := by
    have := hbound i insn hi
    omega
  have hge : ∀ x ∈ all, bound ≤ x.pc → insn.originalPc ≤ x.pc := by
    intro x hx hb
    obtain ⟨insn', hmem, hpc⟩ := ho.boundaries x hx
    obtain ⟨j, hj⟩ := getElem?_of_mem hmem
    have hji : ¬ j < i := by
      have := hbound j insn' hj
      omega
    have := bound_succ hlt hi j insn' hj
    rcases Nat.lt_or_eq_of_le (Nat.le_of_not_lt hji) with hij | rfl
    · omega
    · obtain rfl : insn = insn' := Option.some.inj (hi.symm.trans hj)
      omega
  have hfilter : all.filter (fun x => insn.originalPc + 1 ≤ x.pc) =
      (all.filter fun x => bound ≤ x.pc).filter fun x => insn.originalPc + 1 ≤ x.pc := by
    rw [filter_filter]
    apply filter_congr
    intro x _
    have : insn.originalPc + 1 ≤ x.pc → bound ≤ x.pc := by omega
    by_cases hx : insn.originalPc + 1 ≤ x.pc <;> simp [hx, this]
  have hnext := bound_succ hlt hi
  have hpending : ∀ x ∈ all, x.pc = insn.originalPc → x ∈ all.filter fun x => bound ≤ x.pc := by
    intro x hx hxpc
    simp [hx]
    omega
  rcases hpend with hpend | ⟨hpend, hfs, hd⟩
  · have hmem : ∀ x ∈ d :: ds, x ∈ all ∧ bound ≤ x.pc := by
      intro x hx
      rw [← hpend] at hx
      simpa using hx
    obtain ⟨hdall, hdb⟩ := hmem d (by simp)
    have hsorted : (d :: ds).Pairwise fun d e => d.pc < e.pc := by
      rw [← hpend]
      exact ho.sorted.filter _
    have hrest := (pairwise_cons.mp hsorted).1
    have hdge := hge d hdall hdb
    by_cases hpc : insn.originalPc = d.pc
    · have hdrop : all.filter (fun x => insn.originalPc + 1 ≤ x.pc) = ds := by
        rw [hfilter, hpend, filter_cons_of_neg (by simp [hpc]), filter_eq_self]
        intro x hx
        have := hrest x hx
        simp only [decide_eq_true_eq]
        omega
      refine .here first d fs ds hdall hpc hat hds hdrop ?_ ?_
      · rintro rfl
        refine ⟨⟨_, first, d, [], ds, hnext, hat, hds, .inr ⟨?_, rfl, by omega⟩⟩⟩
        rw [hdrop]
        simpa [expandFrames] using hds.symm
      · rintro d' fs' ds' it' rfl hat' hds'
        exact ⟨⟨_, false, d', fs', ds', hnext, hat', hds', .inl hdrop⟩⟩
    · have hkeep : all.filter (fun x => insn.originalPc + 1 ≤ x.pc) = d :: ds := by
        rw [hfilter, hpend, filter_eq_self]
        intro x hx
        have hxd : d.pc ≤ x.pc := by
          rcases mem_cons.mp hx with rfl | hx
          · exact le_rfl
          · exact (hrest x hx).le
        simp only [decide_eq_true_eq]
        omega
      refine .later (fun he => hpc (he.trans hat.pc)) ?_
        ⟨⟨_, first, d, fs, ds, hnext, hat, hds, .inl hkeep⟩⟩
      intro x hx hxpc
      have hxmem := hpending x hx hxpc
      rw [hpend] at hxmem
      rcases mem_cons.mp hxmem with rfl | hxmem
      · exact hpc hxpc.symm
      · have := hrest x hxmem
        omega
  · have hgone : all.filter (fun x => insn.originalPc + 1 ≤ x.pc) = [] := by
      rw [hfilter, hpend]
      rfl
    have hne : insn.originalPc ≠ it.pc := by
      rw [hat.pc]
      omega
    refine .later hne ?_ ⟨⟨_, first, d, fs, ds, hnext, hat, hds, .inr ⟨hgone, hfs, by omega⟩⟩⟩
    intro x hx hxpc
    have hxmem := hpending x hx hxpc
    rw [hpend] at hxmem
    cases hxmem

theorem arrive_arrived {s s' : PassState} (hz : Swizzles env.maxLocals env.swizzle)
    (hsmt : env.missingSmt = false)
    (hlt : code.Pairwise fun a b => a.originalPc < b.originalPc) (ho : FramesOrdered code all)
    (hlen : s.ctx.locals.length = env.maxLocals) (hi : code[i]? = some insn)
    (hit : IterInv code all s.iter i) (h : s.arrive env i insn = .ok s') :
    Arrived env code all i s s' := by
  unfold PassState.arrive at h
  cases hit.step hlt ho hi with
  | here first d fs ds hdall hpc hat hds hdrop hlast hmore =>
    obtain ⟨hexact, hlen'⟩ := useStackMapFrame_exact hz hlen hat
    have hdecl := declaredAt_of_mem ho.sorted hi hdall hpc.symm
    have hdeclared : ∀ f, declaredAt code all i = some f →
        FrameExact env.swizzle (s.ctx.useStackMapFrame env s.iter) f := by
      intro f hf
      rw [hdecl] at hf
      exact Option.some.inj hf ▸ hexact
    have hcarried : declaredAt code all i = none → s.ctx.useStackMapFrame env s.iter = s.ctx := by
      intro hf
      rw [hdecl] at hf
      cases hf
    rw [if_pos (hpc.trans hat.pc.symm)] at h
    cases fs with
    | nil =>
      simp only [hat.hasNext, isEmpty_nil, Bool.not_true, Bool.false_eq_true, if_false,
        Except.ok.injEq] at h
      subst h
      exact ⟨hlast rfl, rfl, rfl, hlen', hdeclared, hcarried⟩
    | cons f fs =>
      simp only [hat.hasNext, isEmpty_cons, Bool.not_false, if_true] at h
      split at h
      · cases h
      rename_i it' hit'
      cases h
      obtain ⟨d', ds', heq, hat', hds'⟩ := hat.next hds hit'
      exact ⟨hmore d' fs ds' it' heq hat' hds', rfl, rfl, hlen', hdeclared, hcarried⟩
  | later hne hall hiter =>
    have hnone : declaredAt code all i = none := declaredAt_eq_none hi hall
    rw [if_neg hne, if_neg (by simp [hsmt])] at h
    cases h
    refine ⟨hiter, rfl, rfl, hlen, ?_, fun _ => rfl⟩
    intro f hf
    rw [hnone] at hf
    cases hf

theorem Analyzed.locals_length {b : Bool} {curr : ℕ} {insn insn' : Instruction}
    {st ls : List TypeKind} (h : Analyzed env b curr insn c st ls insn') :
    ls.length = c.locals.length := by
  cases h <;> simp

/-- The record of the pass about one instruction: the state it was analysed in is the declared
frame, where there is one, and the state after it is carried to an undeclared successor. -/
structure TraceAt (env : AnalysisEnv) (code : List Instruction) (all : List DeclaredFrame)
    (states : List StackSummary) (output : List Instruction) (i : ℕ) (insn : Instruction)
    (c c' : AnalysisCtx) (insn' : Instruction) : Prop where
  state : states[i]? = some ⟨c.stack, c.locals⟩
  output : output[i]? = some insn'
  analyzed : analyzeInstruction env true i insn c = .ok (c', insn')
  length : c.locals.length = env.maxLocals
  declared : ∀ f, declaredAt code all i = some f → FrameExact env.swizzle c f
  carried : declaredAt code all (i + 1) = none → ∀ r, states[i + 1]? = some r →
    r = ⟨c'.stack, c'.locals⟩

theorem passFrom_trace (hz : Swizzles env.maxLocals env.swizzle) (hsmt : env.missingSmt = false)
    (hlt : code.Pairwise fun a b => a.originalPc < b.originalPc) (ho : FramesOrdered code all)
    {rest : List Instruction} {s s' : PassState} (hrest : rest = code.drop i)
    (hlen : s.ctx.locals.length = env.maxLocals) (hit : IterInv code all s.iter i)
    (hi : s.states.length = i ∧ s.code.length = i) (h : passFrom env true i rest s = .ok s') :
    (∃ ss os, s'.states = s.states ++ ss ∧ s'.code = s.code ++ os ∧ ss.length = rest.length) ∧
    (declaredAt code all i = none → ∀ r, s'.states[i]? = some r → r = ⟨s.ctx.stack, s.ctx.locals⟩) ∧
    ∀ j insn, i ≤ j → code[j]? = some insn →
      ∃ c c' insn', TraceAt env code all s'.states s'.code j insn c c' insn' := by
  induction rest generalizing i s with
  | nil =>
    simp only [passFrom, Except.ok.injEq] at h
    subst h
    refine ⟨⟨[], [], by simp⟩, ?_, ?_⟩
    · intro _ r hr
      rw [getElem?_eq_none (by omega)] at hr
      cases hr
    · intro j insn hij hj
      have hge : code.length ≤ i := by simpa using hrest.symm
      rw [getElem?_eq_none (by omega)] at hj
      cases hj
  | cons insn rest ih =>
    obtain ⟨s₁, r, hs₁, hr, h⟩ := passFrom_ok h
    have hget : code[i]? = some insn := by
      have hhead := congrArg List.head? hrest
      simpa using hhead.symm
    have hdrop : rest = code.drop (i + 1) := by
      have htail := congrArg List.tail hrest
      simpa using htail
    have harr := arrive_arrived hz hsmt hlt ho hlen hget hit hs₁
    obtain ⟨_, _, _, _, _, hana, _⟩ := analyzeInstruction_analyzed hr
    have hlen₂ : r.1.locals.length = env.maxLocals := hana.locals_length.trans harr.length
    obtain ⟨⟨ss, os, hss, hos, hsslen⟩, hcarry, htrace⟩ :=
      ih (s := ⟨r.1, s₁.iter, _, _, _⟩) hdrop hlen₂ harr.iter
        (by simp [harr.states, harr.output, hi]) h
    dsimp only at hss hos hcarry
    rw [harr.states] at hss
    rw [harr.output] at hos
    have hstate : s'.states[i]? = some ⟨s₁.ctx.stack, s₁.ctx.locals⟩ := by
      rw [hss, append_assoc, getElem?_append_right (by omega), hi.1]
      simp
    have hout : s'.code[i]? = some r.2 := by
      rw [hos, append_assoc, getElem?_append_right (by omega), hi.2]
      simp
    refine ⟨⟨⟨s₁.ctx.stack, s₁.ctx.locals⟩ :: ss, r.2 :: os, by simp [hss], by simp [hos],
      by simp [hsslen]⟩, ?_, ?_⟩
    · intro hnone q hq
      rw [hstate] at hq
      rw [← Option.some.inj hq, harr.carried hnone]
    · intro j insn' hij hj
      rcases Nat.lt_or_eq_of_le hij with hij | rfl
      · exact htrace j insn' hij hj
      · obtain rfl : insn = insn' := Option.some.inj (hget.symm.trans hj)
        exact ⟨s₁.ctx, r.1, r.2, hstate, hout, hr, harr.length, harr.declared, hcarry⟩

end TraceJvm
