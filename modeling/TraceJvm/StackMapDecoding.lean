import TraceJvm.AnalysisAgreement
import TraceJvm.Lib.Outcome

/-! The frames that `analyze_method_code` takes from the reader of `StackMapTable`, against the
frames that the table declares. -/
namespace TraceJvm
open Outcome List Option

def FrameIterator.advance (maxStack maxLocals : ℕ) (it : FrameIterator) :
    Except String FrameIterator :=
  if it.hasNext then it.next maxStack maxLocals else .ok it

/-- The frame loop of `analyze_method_code` without the analysis of the instructions: for each
instruction the frame that is installed before it. -/
def usedFramesFrom (maxStack maxLocals : ℕ) :
    List Instruction → FrameIterator → Except String (List (Option FrameIterator))
  | [], _ => .ok []
  | insn :: rest, it =>
    if insn.originalPc = it.pc then do
      let next ← it.advance maxStack maxLocals
      let used ← usedFramesFrom maxStack maxLocals rest next
      return some it :: used
    else do
      let used ← usedFramesFrom maxStack maxLocals rest it
      return none :: used

def CodeMethod.usedFrames (m : CodeMethod) : Except String (List (Option FrameIterator)) := do
  let it ← m.initIterator
  usedFramesFrom m.maxStack m.maxLocals m.code it

variable {maxStack maxLocals : ℕ}

theorem FrameIterator.At.next_ok {it : FrameIterator} {first : Bool} {d d' : DeclaredFrame}
    {f : StackMapFrame} {fs : List StackMapFrame} {ds : List DeclaredFrame}
    (h : it.At first d (f :: fs)) (hd : expandFrames first d (f :: fs) = some (d' :: ds))
    (hst : d'.stack.length ≤ maxStack) (hls : (localSlots d'.locals).length ≤ maxLocals) :
    ∃ it', it.next maxStack maxLocals = .ok it' := by
  simp only [expandFrames, bind, bind_eq_some_iff] at hd
  obtain ⟨⟨ls, st⟩, happ, ds', hds', heq⟩ := hd
  cases heq
  have htable : it.table = f.encode ++ encodeFrames fs := by
    rw [h.table]
    simp [encodeFrames]
  exact next_encode_ok f h.locals htable happ hst hls

/-- The table of a method is well formed: its frames fit the limits of the method and stand at
instructions, and the arguments fit. -/
structure WellFormedTable (m : CodeMethod) (frames : List StackMapFrame)
    (all : List DeclaredFrame) : Prop where
  encodes : m.encodes frames
  declared : m.declaredFrames frames = some all
  entry : (localSlots m.entryLocals).length ≤ m.maxLocals
  locals_le : ∀ d ∈ all, (localSlots d.locals).length ≤ m.maxLocals
  stack_le : ∀ d ∈ all, d.stack.length ≤ m.maxStack
  boundaries : ∀ d ∈ all, ∃ insn ∈ m.code, insn.originalPc = d.pc

/-- Every declared frame is installed at its instruction, and no instruction gets another one. -/
def DecodesTable (m : CodeMethod) (all : List DeclaredFrame) : Prop :=
  ∃ used, m.usedFrames = .ok used ∧ ∀ i < m.code.length,
    (used[i]?).join.map KindFrame.ofIterator = declaredAt m.code all i

variable {all : List DeclaredFrame} {rest : List Instruction}

/-- From an iterator that stands where it should, each instruction gets its declared frame. -/
theorem IterInv.used {code : List Instruction}
    (hlt : code.Pairwise fun a b => a.originalPc < b.originalPc) (ho : FramesOrdered code all)
    (hls : ∀ d ∈ all, (localSlots d.locals).length ≤ maxLocals)
    (hst : ∀ d ∈ all, d.stack.length ≤ maxStack) {i : ℕ}
    {it : FrameIterator} (hrest : rest = code.drop i) (hit : IterInv code all it i) :
    ∃ used, usedFramesFrom maxStack maxLocals rest it = .ok used ∧ ∀ k < rest.length,
      (used[k]?).join.map KindFrame.ofIterator = declaredAt code all (i + k) := by
  induction rest generalizing i it with
  | nil => exact ⟨[], rfl, fun k hk => absurd hk (Nat.not_lt_zero k)⟩
  | cons insn rest ih =>
    have hi : code[i]? = some insn := by
      have hhead := congrArg List.head? hrest
      simpa using hhead.symm
    have hdrop : rest = code.drop (i + 1) := by
      have htail := congrArg List.tail hrest
      simpa using htail
    have hjoin : ∀ {u : Option FrameIterator} {used : List (Option FrameIterator)},
        u.map KindFrame.ofIterator = declaredAt code all i →
        (∀ k < rest.length, (used[k]?).join.map KindFrame.ofIterator =
          declaredAt code all (i + 1 + k)) →
        ∀ k < (insn :: rest).length, ((u :: used)[k]?).join.map KindFrame.ofIterator =
          declaredAt code all (i + k) := by
      intro u used hu hused k hk
      cases k with
      | zero => exact hu
      | succ k =>
        rw [getElem?_cons_succ, hused k (Nat.lt_of_succ_lt_succ hk)]
        congr 1
        omega
    cases hit.step hlt ho hi with
    | here first d fs ds hdall hpc hat hds hdrop' hlast hmore =>
      have hdecl := declaredAt_of_mem ho.sorted hi hdall hpc.symm
      have hhere : (some it).map KindFrame.ofIterator = declaredAt code all i := by
        rw [hdecl, map_some, hat.ofIterator]
      have hnext : ∃ next, it.advance maxStack maxLocals = .ok next ∧
          IterInv code all next (i + 1) := by
        cases fs with
        | nil =>
          have hhas : ¬ it.hasNext = true := by rw [hat.hasNext]; simp
          exact ⟨it, if_neg hhas, hlast rfl⟩
        | cons f fs =>
          have hhas : it.hasNext = true := by rw [hat.hasNext]; rfl
          have hmem : ∀ x ∈ ds, x ∈ all := by
            intro x hx
            rw [← hdrop'] at hx
            exact (mem_filter.mp hx).1
          obtain ⟨d', ds', rfl⟩ : ∃ d' ds', ds = d' :: ds' := by
            simp only [expandFrames, bind, bind_eq_some_iff] at hds
            obtain ⟨⟨ls, st⟩, -, ds', -, heq⟩ := hds
            cases heq
            exact ⟨_, _, rfl⟩
          have hd' := hmem d' (mem_cons_self ..)
          obtain ⟨it', hit'⟩ := hat.next_ok hds (hst d' hd') (hls d' hd')
          obtain ⟨d₁, ds₁, heq, hat', hds'⟩ := hat.next hds hit'
          exact ⟨it', (if_pos hhas).trans hit', hmore d₁ fs ds₁ it' heq hat' hds'⟩
      obtain ⟨next, hnext, hinv⟩ := hnext
      obtain ⟨used, hused, hall⟩ := ih hdrop hinv
      refine ⟨some it :: used, ?_, hjoin hhere hall⟩
      rw [usedFramesFrom, if_pos (hpc.trans hat.pc.symm), hnext]
      show (usedFramesFrom maxStack maxLocals rest next >>= _) = _
      rw [hused]
      rfl
    | later hne hno hinv =>
      have hnone : declaredAt code all i = none := declaredAt_eq_none hi hno
      obtain ⟨used, hused, hall⟩ := ih hdrop hinv
      refine ⟨none :: used, ?_, hjoin (by rw [hnone]; rfl) hall⟩
      rw [usedFramesFrom, if_neg hne, hused]
      rfl

def CodeMethod.freshIterator (m : CodeMethod) : FrameIterator where
  pc := 0
  stack := []
  locals := m.initLocals
  table := m.stackMapTable.getD []
  hasNext := m.stackMapTable.isSome
  isFirst := true

theorem initIterator_eq (m : CodeMethod) :
    m.initIterator = if m.freshIterator.table.head? = some 0 then
      m.freshIterator.next m.maxStack m.maxLocals else .ok m.freshIterator :=
  rfl

variable {m : CodeMethod}

/-- A leading byte 0 is read as a `same_frame` at offset 0. -/
theorem freshIterator_skip (hhead : m.freshIterator.table.head? = some 0)
    (hfit : m.initLocals.length ≤ m.maxLocals) :
    ∃ it, m.freshIterator.next m.maxStack m.maxLocals = .ok it ∧
      it.hasNext = !it.table.isEmpty := by
  obtain ⟨rest, hrest⟩ := head?_eq_some_iff.mp hhead
  have hread : readU8 m.freshIterator.table = .ok (0, rest) := by rw [hrest]; rfl
  have hnext : m.freshIterator.next m.maxStack m.maxLocals =
      m.freshIterator.finish m.maxStack m.maxLocals [] m.freshIterator.locals rest 0 := by
    rw [FrameIterator.next, hread]
    rfl
  have hover : ¬ (([] : List ValidationKind).length > m.maxStack ∨
      m.freshIterator.locals.length > m.maxLocals) := by
    rintro (hst | hls)
    · exact absurd hst (Nat.not_lt_zero _)
    · exact absurd hfit (Nat.not_le.mpr hls)
  rw [hnext, FrameIterator.finish, if_neg hover]
  exact ⟨_, rfl, rfl⟩

theorem usedFramesFrom_none {it : FrameIterator} (h : ∀ insn ∈ rest, insn.originalPc ≠ it.pc) :
    usedFramesFrom maxStack maxLocals rest it = .ok (List.replicate rest.length none) := by
  induction rest with
  | nil => rfl
  | cons insn rest ih =>
    rw [usedFramesFrom, if_neg (h insn (mem_cons_self ..)),
      ih fun x hx => h x (mem_cons_of_mem _ hx)]
    rfl

variable {frames : List StackMapFrame}

theorem declaredFrames_head (h : m.declaredFrames frames = some all) :
    ∃ d ds, all = d :: ds ∧ d.pc = 0 := by
  obtain ⟨ds, hds, rfl⟩ := map_eq_some_iff.mp h
  split
  · rename_i hzero
    cases ds with
    | nil => cases hzero
    | cons d ds => exact ⟨d, ds, rfl, by simpa using hzero⟩
  · exact ⟨m.entryFrame, ds, rfl, rfl⟩

theorem WellFormedTable.code_eq (h : WellFormedTable m frames all) :
    ∃ insn rest, m.code = insn :: rest ∧ insn.originalPc = 0 ∧
      ∀ x ∈ rest, 0 < x.originalPc := by
  cases hcode : m.code with
  | nil =>
    obtain ⟨d, ds, rfl, -⟩ := declaredFrames_head h.declared
    obtain ⟨insn, hmem, -⟩ := h.boundaries d (mem_cons_self ..)
    rw [hcode] at hmem
    cases hmem
  | cons insn rest =>
    have hzero := m.pc_zero insn (by rw [hcode]; rfl)
    have hlt := m.pc_lt
    rw [hcode] at hlt
    refine ⟨insn, rest, rfl, hzero, fun x hx => ?_⟩
    have := (pairwise_cons.mp hlt).1 x hx
    omega

structure ImproperStart (m : CodeMethod) (all : List DeclaredFrame) : Prop where
  init : m.initIterator = .ok m.freshIterator
  entry : KindFrame.ofIterator m.freshIterator = .ofDeclared m.entryFrame
  stuck : ∃ it, m.freshIterator.advance m.maxStack m.maxLocals = .ok it ∧ it.pc = 0

theorem WellFormedTable.improperStart (h : WellFormedTable m frames all)
    (hstart : startsProperly frames = false) : ImproperStart m all := by
  cases frames with
  | nil => cases hstart
  | cons f fs =>
    have hzero : f.offsetDelta = 0 := by
      cases f <;> first | cases hstart | simpa [startsProperly] using hstart
    have henc : m.stackMapTable = some (encodeFrames (f :: fs)) := by
      rcases h.encodes with henc | ⟨-, hnil⟩
      · exact henc
      · cases hnil
    have hat : m.freshIterator.At true m.entryFrame (f :: fs) := by
      refine ⟨rfl, rfl, initLocals_eq m, ?_, ?_, rfl⟩
      · show m.stackMapTable.getD [] = _
        rw [henc, getD_some]
      · show m.stackMapTable.isSome = _
        rw [henc]
        rfl
    obtain ⟨ds, hds, hall⟩ := map_eq_some_iff.mp h.declared
    obtain ⟨d, ds', rfl, hpc⟩ : ∃ d ds', ds = d :: ds' ∧ d.pc = 0 := by
      have hds₀ := hds
      simp only [expandFrames, bind, bind_eq_some_iff] at hds₀
      obtain ⟨⟨ls, st⟩, -, ds', -, heq⟩ := hds₀
      cases heq
      exact ⟨_, _, rfl, by simp [CodeMethod.entryFrame, hzero]⟩
    have hmem : d ∈ all := by
      rw [← hall, if_pos (by simp [hpc])]
      exact mem_cons_self ..
    obtain ⟨it, hit⟩ := hat.next_ok hds (h.stack_le d hmem) (h.locals_le d hmem)
    obtain ⟨d₁, ds₁, heq, hat', -⟩ := hat.next hds hit
    cases heq
    have hhead : m.freshIterator.table.head? ≠ some 0 := by
      intro hno
      rw [hat.table, encodeFrames, flatMap_cons] at hno
      have hf : f.encode.head? = some 0 := by
        cases hbytes : f.encode with
        | nil => exact absurd hbytes f.encode_ne_nil
        | cons b bs =>
          rw [hbytes] at hno
          exact hno
      rw [encode_head_eq_zero hf] at hstart
      cases hstart
    refine ⟨by rw [initIterator_eq, if_neg hhead], hat.ofIterator, it, ?_, hat'.pc.trans hpc⟩
    rw [FrameIterator.advance, hat.hasNext]
    exact hit

theorem ImproperStart.used (hs : ImproperStart m all) (h : WellFormedTable m frames all) :
    ∃ n, m.usedFrames = .ok (some m.freshIterator :: List.replicate n none) := by
  obtain ⟨insn, rest, hcode, hzero, hpos⟩ := h.code_eq
  obtain ⟨it, hit, hpc⟩ := hs.stuck
  have hrest : ∀ x ∈ rest, x.originalPc ≠ it.pc := by
    intro x hx
    have := hpos x hx
    omega
  refine ⟨rest.length, ?_⟩
  rw [CodeMethod.usedFrames, hs.init, hcode]
  show usedFramesFrom m.maxStack m.maxLocals (insn :: rest) m.freshIterator = _
  rw [usedFramesFrom, if_pos (show insn.originalPc = m.freshIterator.pc from hzero), hit]
  show (usedFramesFrom m.maxStack m.maxLocals rest it >>= _) = _
  rw [usedFramesFrom_none hrest]
  rfl

/-- The frames of a table are decoded exactly if the table is not an attribute without frames, and
its first frame is not at offset 0, unless it is the skipped `same_frame` or the only frame and
the implicit one over again. -/
theorem decodesTable_iff (h : WellFormedTable m frames all) :
    DecodesTable m all ↔ m.stackMapTable ≠ some [] ∧ (startsProperly frames ∨
      all.map KindFrame.ofDeclared = [.ofDeclared m.entryFrame]) := by
  have hordered : FramesOrdered m.code all := ⟨declaredFrames_sorted h.declared, h.boundaries⟩
  obtain ⟨insn, rest, hcode, hzero, hpos⟩ := h.code_eq
  obtain ⟨d, ds, rfl, hd⟩ := declaredFrames_head h.declared
  have hfirst : declaredAt m.code (d :: ds) 0 = some (.ofDeclared d) :=
    declaredAt_of_mem hordered.sorted (by rw [hcode]; rfl) (mem_cons_self ..) (hd.trans hzero.symm)
  constructor
  · rintro ⟨used, hused, hdecodes⟩
    constructor
    · intro hempty
      have htable : m.freshIterator.table = [] := by
        show m.stackMapTable.getD [] = []
        rw [hempty, getD_some]
      have hhas : m.freshIterator.hasNext = true := by
        show m.stackMapTable.isSome = true
        rw [hempty]
        rfl
      rw [CodeMethod.usedFrames, initIterator_eq, if_neg (by rw [htable]; nofun), hcode] at hused
      change usedFramesFrom m.maxStack m.maxLocals (insn :: rest) m.freshIterator = _ at hused
      rw [usedFramesFrom, if_pos (show insn.originalPc = m.freshIterator.pc from hzero),
        FrameIterator.advance, if_pos hhas, FrameIterator.next, htable] at hused
      cases hused
    · by_contra hno
      obtain ⟨hstart, hkinds⟩ := not_or.mp hno
      have himproper := h.improperStart (Bool.eq_false_iff.mpr hstart)
      obtain ⟨n, hn⟩ := himproper.used h
      rw [hused] at hn
      cases hn
      have hzero' := hdecodes 0 (by rw [hcode]; exact Nat.succ_pos _)
      rw [hfirst] at hzero'
      have hkind : KindFrame.ofIterator m.freshIterator = .ofDeclared d := some.inj hzero'
      apply hkinds
      cases ds with
      | nil => rw [map_singleton, ← hkind, himproper.entry]
      | cons e ds =>
        obtain ⟨x, hx, hxpc⟩ := h.boundaries e (by simp)
        obtain ⟨i, hi⟩ := getElem?_of_mem hx
        have hpc : d.pc < e.pc :=
          (pairwise_cons.mp hordered.sorted).1 e (mem_cons_self ..)
        have hdecl := declaredAt_of_mem hordered.sorted hi (by simp) hxpc.symm
        obtain ⟨hlt, -⟩ := List.getElem?_eq_some_iff.mp hi
        have hwrong := hdecodes i hlt
        rw [hdecl] at hwrong
        cases i with
        | zero =>
          rw [hcode] at hi
          cases hi
          omega
        | succ i =>
          rw [getElem?_cons_succ, getElem?_replicate] at hwrong
          split at hwrong <;> cases hwrong
  · rintro ⟨htable, hstart⟩
    by_cases hproper : startsProperly frames = true
    · have hfit : m.initLocals.length ≤ m.maxLocals := by
        rw [initLocals_eq]
        exact h.entry
      have hinit : ∃ it, m.initIterator = .ok it ∧ ¬ (it.hasNext = true ∧ it.table = []) := by
        rw [initIterator_eq]
        by_cases hhead : m.freshIterator.table.head? = some 0
        · obtain ⟨it, hit, hhas⟩ := freshIterator_skip hhead hfit
          refine ⟨it, by rw [if_pos hhead, hit], ?_⟩
          rintro ⟨hnext, hempty⟩
          rw [hhas, hempty] at hnext
          cases hnext
        · refine ⟨_, if_neg hhead, ?_⟩
          rintro ⟨hnext, hempty⟩
          obtain ⟨bytes, hbytes⟩ := isSome_iff_exists.mp hnext
          apply htable
          change m.stackMapTable.getD [] = [] at hempty
          rw [hbytes] at hempty ⊢
          exact congrArg some hempty
      obtain ⟨it, hit, hmore⟩ := hinit
      rcases initIterator_inv h.encodes h.declared hproper hit with hinv | ⟨-, hhas, hempty⟩
      · obtain ⟨used, hused, hall⟩ := hinv.used m.pc_lt hordered h.locals_le h.stack_le rfl
        refine ⟨used, ?_, fun i hi => ?_⟩
        · rw [CodeMethod.usedFrames, hit]
          exact hused
        · have := hall i hi
          rwa [Nat.zero_add] at this
      · exact absurd ⟨hhas, hempty⟩ hmore
    · have himproper := h.improperStart (Bool.eq_false_iff.mpr hproper)
      obtain ⟨n, hn⟩ := himproper.used h
      have hkinds := hstart.resolve_left hproper
      rw [map_cons] at hkinds
      obtain ⟨hkind, hnil⟩ := cons.inj hkinds
      obtain rfl : ds = [] := map_eq_nil_iff.mp hnil
      refine ⟨_, hn, fun i hi => ?_⟩
      cases i with
      | zero =>
        rw [hfirst, hkind, ← himproper.entry]
        rfl
      | succ i =>
        obtain ⟨x, hx⟩ : ∃ x, m.code[i + 1]? = some x :=
          ⟨_, getElem?_eq_getElem hi⟩
        have hxpc : 0 < x.originalPc := by
          rw [hcode, getElem?_cons_succ] at hx
          exact hpos x (mem_of_getElem? hx)
        rw [declaredAt_eq_none hx, getElem?_cons_succ, getElem?_replicate]
        · split <;> rfl
        · intro y hy
          obtain rfl := mem_singleton.mp hy
          omega

/-- The recorded state is the frame, each local slot at its new place. -/
structure StackSummary.Shows (swizzle : List ℕ) (r : StackSummary) (f : KindFrame) : Prop where
  stack : r.stack = f.stack
  locals : ∀ s j : ℕ, swizzle[s]? = some j → r.locals[j]? = some (f.locals s)

/-- The analysis of a method with a table installs the frames of the frame loop. -/
theorem passFrom_used {env : AnalysisEnv} (hz : Swizzles env.maxLocals env.swizzle)
    (hsmt : env.missingSmt = false) {b : Bool} {i : ℕ} {s s' : PassState}
    (hlen : s.ctx.locals.length = env.maxLocals) (h : passFrom env b i rest s = .ok s') :
    ∃ used states, usedFramesFrom env.maxStack env.maxLocals rest s.iter = .ok used ∧
      s'.states = s.states ++ states ∧ ∀ (k : ℕ) it, used[k]? = some (some it) →
        ∃ r, states[k]? = some r ∧ r.Shows env.swizzle (.ofIterator it) := by
  induction rest generalizing i s with
  | nil =>
    cases h
    exact ⟨[], [], rfl, (append_nil _).symm, fun k it hk => by cases hk⟩
  | cons insn rest ih =>
    rw [passFrom] at h
    obtain ⟨s₁, harrive, h⟩ := bind_eq_ok.mp h
    obtain ⟨⟨c, insn'⟩, hinsn, h⟩ := bind_eq_ok.mp h
    obtain ⟨_, _, _, _, _, hana, _⟩ := analyzeInstruction_analyzed hinsn
    have hstep : ∃ u, s₁.states = s.states ∧ s₁.ctx.locals.length = env.maxLocals ∧
        (∀ used, usedFramesFrom env.maxStack env.maxLocals rest s₁.iter = .ok used →
          usedFramesFrom env.maxStack env.maxLocals (insn :: rest) s.iter = .ok (u :: used)) ∧
        ∀ it, u = some it → FrameExact env.swizzle s₁.ctx (.ofIterator it) := by
      unfold PassState.arrive at harrive
      by_cases hpc : insn.originalPc = s.iter.pc
      · have hframe : FrameExact env.swizzle (s.ctx.useStackMapFrame env s.iter)
            (.ofIterator s.iter) ∧ (s.ctx.useStackMapFrame env s.iter).locals.length =
              env.maxLocals := useStackMapFrame_ofIterator hz hlen
        obtain ⟨hexact, hlen'⟩ := hframe
        have hused : ∀ next, s.iter.advance env.maxStack env.maxLocals = .ok next → ∀ used,
            usedFramesFrom env.maxStack env.maxLocals rest next = .ok used →
            usedFramesFrom env.maxStack env.maxLocals (insn :: rest) s.iter =
              .ok (some s.iter :: used) := by
          intro next hnext used hrest
          rw [usedFramesFrom, if_pos hpc, hnext]
          show (usedFramesFrom env.maxStack env.maxLocals rest next >>= _) = _
          rw [hrest]
          rfl
        rw [if_pos hpc] at harrive
        dsimp only at harrive
        split at harrive
        · rename_i hhas
          split at harrive
          · cases harrive
          · rename_i next hnext
            cases harrive
            refine ⟨some s.iter, rfl, hlen', hused next ((if_pos hhas).trans hnext), ?_⟩
            rintro it ⟨⟩
            exact hexact
        · rename_i hhas
          cases harrive
          refine ⟨some s.iter, rfl, hlen', hused s.iter (if_neg hhas), ?_⟩
          rintro it ⟨⟩
          exact hexact
      · rw [if_neg hpc, if_neg (by simp [hsmt])] at harrive
        cases harrive
        refine ⟨none, rfl, hlen, fun used hrest => ?_, fun it hit => by cases hit⟩
        rw [usedFramesFrom, if_neg hpc, hrest]
        rfl
    obtain ⟨u, hstates, hlen₁, hused, hexact⟩ := hstep
    obtain ⟨used, states, hrest, hstates', hshow⟩ := ih (hana.locals_length.trans hlen₁) h
    refine ⟨u :: used, ⟨s₁.ctx.stack, s₁.ctx.locals⟩ :: states, hused used hrest, ?_, ?_⟩
    · rw [hstates']
      dsimp only
      rw [hstates, append_assoc]
      rfl
    · intro k it hk
      cases k with
      | zero =>
        have hframe := hexact it (some.inj hk)
        exact ⟨_, rfl, hframe.stack, hframe.locals⟩
      | succ k => exact hshow k it hk

theorem analyzeMethodCode_used {fuel : ℕ} {A : CodeAnalysis}
    (hsmt : m.missingSmt = false) (h : analyzeMethodCode fuel m = some (.ok A)) :
    ∃ swizzle locals used, m.localsOnMethodEntry = .ok (swizzle, locals) ∧
      m.usedFrames = .ok used ∧ ∀ (k : ℕ) it, used[k]? = some (some it) →
        ∃ r, A.states[k]? = some r ∧ r.Shows swizzle (.ofIterator it) := by
  obtain ⟨swizzle, locals, it, s, hentry, hit, hpass, -, hstates⟩ := analyzeMethodCode_pass hsmt h
  obtain ⟨hz, hlen, -⟩ := localsOnMethodEntry_swizzles hentry
  obtain ⟨used, states, hused, hrecorded, hshow⟩ := passFrom_used hz hsmt hlen hpass
  refine ⟨swizzle, locals, used, hentry, ?_, ?_⟩
  · rw [CodeMethod.usedFrames, hit]
    exact hused
  · rw [hstates, hrecorded]
    exact hshow

/-- The stack map frames that the analysis installs are those that the table declares, each at its
instruction, exactly under the condition on the start of the table; and what the analysis of an
accepted method records at an instruction with a frame is what was installed there. -/
theorem stackMapTable_decoding_iff (m : CodeMethod) (frames : List StackMapFrame)
    (all : List DeclaredFrame) (h : WellFormedTable m frames all) :
    (DecodesTable m all ↔ m.stackMapTable ≠ some [] ∧ (startsProperly frames ∨
      all.map KindFrame.ofDeclared = [.ofDeclared m.entryFrame])) ∧
    ∀ fuel A, m.missingSmt = false → analyzeMethodCode fuel m = some (.ok A) →
      ∃ swizzle locals used, m.localsOnMethodEntry = .ok (swizzle, locals) ∧
        m.usedFrames = .ok used ∧ ∀ (k : ℕ) it, used[k]? = some (some it) →
          ∃ r, A.states[k]? = some r ∧ r.Shows swizzle (.ofIterator it) :=
  ⟨decodesTable_iff h, fun _ _ hsmt hA => analyzeMethodCode_used hsmt hA⟩

/-- `static void f(long)` with a `double` of its own between two frames. -/
def scopedDouble : CodeMethod where
  maxStack := 2
  maxLocals := 4
  code := [{ kind := .nop, originalPc := 0 }, { kind := .nop, originalPc := 1 },
    { kind := .returnVoid, originalPc := 3 }]
  exceptionTable := []
  lvt := []
  stackMapTable := some [252, 0, 1, 3, 250, 0, 1]
  pc_zero := by simp
  pc_lt := by decide
  isStatic := true
  isCtor := false
  descriptor := ⟨[.ofKind .long], .ofKind .void, FieldDescriptor.long_ne_void⟩
  missingSmt := false
  missing_eq := nofun

/-- The frames of `scopedDouble`. -/
def scopedDoubleFrames : List StackMapFrame :=
  [.append ⟨[⟨.double, 0⟩], by decide⟩ 1, .chop 0 1]

theorem scopedDouble_wellFormed : WellFormedTable scopedDouble scopedDoubleFrames
    [⟨0, [.long], []⟩, ⟨1, [.long, .double], []⟩, ⟨3, [.long], []⟩] where
  encodes := .inl rfl
  declared := rfl
  entry := by decide
  locals_le := by decide
  stack_le := by decide
  boundaries := by decide

theorem scopedDouble_decoded :
    DecodesTable scopedDouble [⟨0, [.long], []⟩, ⟨1, [.long, .double], []⟩, ⟨3, [.long], []⟩] :=
  (stackMapTable_decoding_iff _ _ _ scopedDouble_wellFormed).1.mpr ⟨by decide, .inl rfl⟩

theorem choppedTable_missing (h : false = true) : some [(250 : UInt8), 0, 0] = none := by cases h

/-- `static void f(Object)` whose only frame, at offset 0, drops the argument. -/
def choppedArgument : CodeMethod where
  maxStack := 0
  maxLocals := 1
  code := [{ kind := .returnVoid, originalPc := 0 }]
  exceptionTable := []
  lvt := []
  stackMapTable := some [250, 0, 0]
  pc_zero := by simp
  pc_lt := by decide
  isStatic := true
  isCtor := false
  descriptor := ⟨[.ofKind .reference], .ofKind .void, FieldDescriptor.reference_ne_void⟩
  missingSmt := false
  missing_eq := choppedTable_missing

/-- The frame without locals is declared at 0, the implicit frame with its argument installed. -/
theorem choppedArgument_misread :
    WellFormedTable choppedArgument [.chop 0 0] [⟨0, [], []⟩] ∧
      ¬ DecodesTable choppedArgument [⟨0, [], []⟩] := by
  constructor
  · exact ⟨.inl rfl, rfl, by decide, by decide, by decide, by decide⟩
  · rintro ⟨used, hused, hdecodes⟩
    have hzero := hdecodes 0 (by decide)
    have hread : choppedArgument.usedFrames = .ok [some choppedArgument.freshIterator] := rfl
    rw [hread] at hused
    cases hused
    have hkinds := congrArg (fun f => f.map fun f => f.locals 0) hzero
    cases hkinds

end TraceJvm
