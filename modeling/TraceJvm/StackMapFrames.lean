import TraceJvm.StackMapTable
import Mathlib.Data.List.Induction

/-! Stack map frames as JVMS 4.7.4 describes them: their encoding, and the explicit frames that a
sequence of them stands for. The reader of `StackMapTable` decodes exactly these. -/
namespace TraceJvm

open List

/-- `verification_type_info`; the payload is a constant pool index or a byte pc and is present for
two of the kinds only. -/
structure VerificationType where
  kind : ValidationKind
  payload : UInt16 := 0

/-- `stack_map_frame`. A `chop` removes one local more than its number says. -/
inductive StackMapFrame where
  | sameFrame (delta : Fin 64)
  | sameLocals (delta : Fin 64) (v : VerificationType)
  | sameLocalsExtended (delta : UInt16) (v : VerificationType)
  | chop (count : Fin 3) (delta : UInt16)
  | sameFrameExtended (delta : UInt16)
  | append (vs : { l : List VerificationType // 1 ≤ l.length ∧ l.length ≤ 3 }) (delta : UInt16)
  | fullFrame (delta : UInt16) (locals stack : { l : List VerificationType // l.length < 65536 })

def encodeU16 (n : UInt16) : List UInt8 := [UInt8.ofNat (n.toNat / 256), UInt8.ofNat n.toNat]

def ValidationKind.tag : ValidationKind → ℕ
  | .top => 0
  | .integer => 1
  | .float => 2
  | .double => 3
  | .long => 4
  | .null => 5
  | .uninitThis => 6
  | .object => 7
  | .uninit => 8

def VerificationType.encode (v : VerificationType) : List UInt8 :=
  UInt8.ofNat v.kind.tag :: if v.kind.hasPayload then encodeU16 v.payload else []

def encodeTypes (vs : List VerificationType) : List UInt8 := vs.flatMap VerificationType.encode

def StackMapFrame.encode : StackMapFrame → List UInt8
  | .sameFrame d => [UInt8.ofNat d]
  | .sameLocals d v => UInt8.ofNat (d + 64) :: v.encode
  | .sameLocalsExtended d v => 247 :: encodeU16 d ++ v.encode
  | .chop c d => UInt8.ofNat (250 - c) :: encodeU16 d
  | .sameFrameExtended d => 251 :: encodeU16 d
  | .append vs d => UInt8.ofNat (vs.1.length + 251) :: encodeU16 d ++ encodeTypes vs.1
  | .fullFrame d ls st => 255 :: encodeU16 d ++ encodeU16 (UInt16.ofNat ls.1.length) ++
      encodeTypes ls.1 ++ encodeU16 (UInt16.ofNat st.1.length) ++ encodeTypes st.1

def StackMapFrame.offsetDelta : StackMapFrame → ℕ
  | .sameFrame d => d
  | .sameLocals d _ => d
  | .sameLocalsExtended d _ | .chop _ d | .sameFrameExtended d | .append _ d
  | .fullFrame d _ _ => d.toNat

/-- Locals and stack of the frame, given the locals of the frame before it. A `long` or `double`
is one entry. -/
def StackMapFrame.apply (locals : List ValidationKind) :
    StackMapFrame → Option (List ValidationKind × List ValidationKind)
  | .sameFrame _ | .sameFrameExtended _ => some (locals, [])
  | .sameLocals _ v | .sameLocalsExtended _ v => some (locals, [v.kind])
  | .chop c _ =>
      if c + 1 ≤ locals.length then some (locals.take (locals.length - (c + 1)), []) else none
  | .append vs _ => some (locals ++ vs.1.map (·.kind), [])
  | .fullFrame _ ls st => some (ls.1.map (·.kind), st.1.map (·.kind))

/-- An explicit frame: where it holds, the locals with one entry a value, and the stack, bottom
first. -/
structure DeclaredFrame where
  pc : ℕ
  locals : List ValidationKind
  stack : List ValidationKind
  deriving DecidableEq

def expandFrames (first : Bool) (prev : DeclaredFrame) :
    List StackMapFrame → Option (List DeclaredFrame)
  | [] => some []
  | f :: fs => do
    let (locals, stack) ← f.apply prev.locals
    let pc := if first then prev.pc + f.offsetDelta else prev.pc + f.offsetDelta + 1
    let frames ← expandFrames false ⟨pc, locals, stack⟩ fs
    return ⟨pc, locals, stack⟩ :: frames

def localSlots (ls : List ValidationKind) : List ValidationType := ls.flatMap ValidationKind.slots

@[simp] theorem localSlots_append (ls ms : List ValidationKind) :
    localSlots (ls ++ ms) = localSlots ls ++ localSlots ms := by
  simp [localSlots]

theorem localSlots_singleton (k : ValidationKind) : localSlots [k] = k.slots := by
  simp [localSlots]

theorem readU8_cons (n : ℕ) (h : n < 256) (rest : List UInt8) :
    readU8 (UInt8.ofNat n :: rest) = .ok (n, rest) := by
  simp [readU8, Nat.mod_eq_of_lt h]

theorem readU8_literal (rest : List UInt8) :
    readU8 (247 :: rest) = .ok (247, rest) ∧ readU8 (251 :: rest) = .ok (251, rest) ∧
      readU8 (255 :: rest) = .ok (255, rest) :=
  ⟨rfl, rfl, rfl⟩

theorem readU16_encode (n : UInt16) (rest : List UInt8) :
    readU16 (encodeU16 n ++ rest) = .ok (n.toNat, rest) := by
  have hn := n.toNat_lt
  simp only [encodeU16, cons_append, nil_append, readU16, UInt8.toNat_ofNat']
  congr 2
  omega

theorem toNat_ofNat_length (l : { l : List VerificationType // l.length < 65536 }) :
    (UInt16.ofNat l.1.length).toNat = l.1.length := by
  rw [UInt16.toNat_ofNat']
  exact Nat.mod_eq_of_lt l.2

theorem ofTag_tag (k : ValidationKind) : ValidationKind.ofTag k.tag = some k := by
  cases k <;> rfl

theorem readVerificationType_encode (v : VerificationType) (rest : List UInt8) :
    readVerificationType (v.encode ++ rest) = .ok (v.kind, rest) := by
  have htag : v.kind.tag < 256 := by cases v.kind <;> decide
  simp only [readVerificationType, VerificationType.encode, cons_append, readU8_cons _ htag]
  dsimp only [bind, Except.bind]
  rw [ofTag_tag]
  dsimp only
  split
  · rw [readU16_encode]
    rfl
  · rfl

variable {rest : List UInt8}

variable {ls : List ValidationKind} {maxLocals : ℕ}

/-- `x` is `y`, or an error where a limit is passed. -/
def ReadsIf (fits : Prop) {α : Type} (x y : Except String α) : Prop :=
  x = y ∨ ¬ fits ∧ ∃ msg, x = .error msg

theorem readLocals_encode (msg : String) (vs : List VerificationType) :
    ReadsIf ((localSlots (ls ++ vs.map (·.kind))).length ≤ maxLocals)
      (readLocals maxLocals msg vs.length (localSlots ls) (encodeTypes vs ++ rest))
      (.ok (localSlots (ls ++ vs.map (·.kind)), rest)) := by
  induction vs generalizing ls with
  | nil => exact .inl (by simp [readLocals, encodeTypes])
  | cons v vs ih =>
    have hcat : encodeTypes (v :: vs) ++ rest = v.encode ++ (encodeTypes vs ++ rest) := by
      simp [encodeTypes]
    have hsplit : ls ++ (v :: vs).map (·.kind) = (ls ++ [v.kind]) ++ vs.map (·.kind) := by simp
    rw [hsplit, hcat]
    simp only [length_cons, readLocals, readVerificationType_encode, bind, Except.bind]
    rw [← localSlots_singleton, ← localSlots_append]
    split
    · refine .inr ⟨?_, _, rfl⟩
      rw [localSlots_append (ls ++ _), length_append]
      omega
    · exact ih

variable {st : List ValidationKind}

variable {maxStack : ℕ}

theorem readStack_encode (vs : List VerificationType) :
    ReadsIf ((st ++ vs.map (·.kind)).length ≤ maxStack)
      (readStack maxStack vs.length st (encodeTypes vs ++ rest))
      (.ok (st ++ vs.map (·.kind), rest)) := by
  induction vs generalizing st with
  | nil => exact .inl (by simp [readStack, encodeTypes])
  | cons v vs ih =>
    have hcat : encodeTypes (v :: vs) ++ rest = v.encode ++ (encodeTypes vs ++ rest) := by
      simp [encodeTypes]
    have hsplit : st ++ (v :: vs).map (·.kind) = (st ++ [v.kind]) ++ vs.map (·.kind) := by simp
    rw [hsplit, hcat]
    simp only [length_cons, readStack, readVerificationType_encode, bind, Except.bind]
    split
    · refine .inr ⟨?_, _, rfl⟩
      rw [length_append]
      omega
    · exact ih

theorem chopLocals_localSlots (n : ℕ) (ls : List ValidationKind) (h : n ≤ ls.length) :
    chopLocals n (localSlots ls) = .ok (localSlots (ls.take (ls.length - n))) := by
  induction n generalizing ls with
  | zero => simp [chopLocals]
  | succ n ih =>
    induction ls using List.reverseRecOn with
    | nil => simp at h
    | append_singleton init k =>
      have hn : n ≤ init.length := by simpa using h
      have htake : (init ++ [k]).take ((init ++ [k]).length - (n + 1)) =
          init.take (init.length - n) := by
        rw [take_append_of_le_length (by simp)]
        simp
      rw [htake, localSlots_append, localSlots_singleton, ← ih init hn]
      cases hk : k.isWide with
      | true =>
        have hlen : ¬ (localSlots init).length + 2 < 2 := by omega
        simp [chopLocals, ValidationKind.slots, hk, implicitTop, ValidationType.isImplicitTop,
          dropLast_append_of_ne_nil, hlen]
      | false =>
        simp [chopLocals, ValidationKind.slots, hk, ValidationType.isImplicitTop]

def FrameIterator.standsAt (it : FrameIterator) (d : DeclaredFrame) (rest : List UInt8) : Prop :=
  it.pc = d.pc ∧ it.stack = d.stack ∧ it.locals = localSlots d.locals ∧ it.table = rest ∧
    it.hasNext = !rest.isEmpty ∧ it.isFirst = false

variable {it it' : FrameIterator}

theorem finish_standsAt {delta : ℕ} {st : List ValidationKind} {t : List UInt8}
    (h : it.finish maxStack maxLocals st (localSlots ls) t delta = .ok it') :
    it'.standsAt ⟨if it.isFirst then it.pc + delta else it.pc + delta + 1, ls, st⟩ t := by
  unfold FrameIterator.finish at h
  split at h
  · cases h
  · cases h
    exact ⟨rfl, rfl, rfl, rfl, rfl, rfl⟩

variable {prev : List ValidationKind}

theorem finish_ok {delta : ℕ} {ls : List ValidationType} {t : List UInt8}
    (hst : st.length ≤ maxStack) (hls : ls.length ≤ maxLocals) :
    ∃ it', it.finish maxStack maxLocals st ls t delta = .ok it' := by
  rw [FrameIterator.finish, if_neg (by omega)]
  exact ⟨_, rfl⟩

variable {prev : List ValidationKind}

/-- One step of the reader over an encoded frame stores the frame that JVMS 4.7.4 describes, unless
it passes a limit. -/
theorem next_reads (f : StackMapFrame) (hloc : it.locals = localSlots prev)
    (htab : it.table = f.encode ++ rest) (happ : f.apply prev = some (ls, st)) :
    ReadsIf (st.length ≤ maxStack ∧ (localSlots ls).length ≤ maxLocals)
      (it.next maxStack maxLocals)
      (it.finish maxStack maxLocals st (localSlots ls) rest f.offsetDelta) := by
  simp only [FrameIterator.next, htab, hloc, bind, Except.bind]
  cases f with
  | sameFrame d =>
    have hd := d.isLt
    obtain ⟨rfl, rfl⟩ : prev = ls ∧ [] = st := by simpa [StackMapFrame.apply] using happ
    simp only [StackMapFrame.encode, cons_append, nil_append, readU8_cons d (by omega)]
    rw [if_pos (by omega)]
    exact .inl rfl
  | sameLocals d v =>
    have hd := d.isLt
    obtain ⟨rfl, rfl⟩ : prev = ls ∧ [v.kind] = st := by simpa [StackMapFrame.apply] using happ
    simp only [StackMapFrame.encode, cons_append, readU8_cons (d + 64) (by omega),
      readVerificationType_encode]
    rw [if_neg (by omega), if_pos (by omega), Nat.add_sub_cancel]
    exact .inl rfl
  | sameLocalsExtended d v =>
    obtain ⟨rfl, rfl⟩ : prev = ls ∧ [v.kind] = st := by simpa [StackMapFrame.apply] using happ
    simp only [StackMapFrame.encode, cons_append, append_assoc, (readU8_literal _).1,
      readU16_encode, readVerificationType_encode]
    exact .inl rfl
  | chop c d =>
    have hc := c.isLt
    simp only [StackMapFrame.apply] at happ
    split at happ
    · rename_i hle
      obtain ⟨rfl, rfl⟩ : prev.take (prev.length - (c + 1)) = ls ∧ [] = st := by simpa using happ
      simp only [StackMapFrame.encode, cons_append, readU8_cons (250 - c) (by omega)]
      rw [if_neg (by omega), if_neg (by omega), if_neg (by omega), if_neg (by omega),
        if_pos (by omega), show 251 - (250 - (c : ℕ)) = c + 1 by omega,
        chopLocals_localSlots _ _ hle, readU16_encode]
      exact .inl rfl
    · cases happ
  | sameFrameExtended d =>
    obtain ⟨rfl, rfl⟩ : prev = ls ∧ [] = st := by simpa [StackMapFrame.apply] using happ
    simp only [StackMapFrame.encode, cons_append, (readU8_literal _).2.1, readU16_encode]
    exact .inl rfl
  | append vs d =>
    have hvs := vs.2
    obtain ⟨rfl, rfl⟩ : prev ++ vs.1.map (·.kind) = ls ∧ [] = st := by
      simpa [StackMapFrame.apply] using happ
    simp only [StackMapFrame.encode, cons_append, append_assoc,
      readU8_cons (vs.1.length + 251) (by omega)]
    rw [if_neg (by omega), if_neg (by omega), if_neg (by omega), if_neg (by omega),
      if_neg (by omega), if_neg (by omega), if_pos (by omega), readU16_encode,
      Nat.add_sub_cancel]
    dsimp only
    rcases readLocals_encode _ vs.1 with hr | ⟨hfit, msg, hr⟩
    · rw [hr]
      exact .inl rfl
    · rw [hr]
      exact .inr ⟨fun h => hfit h.2, msg, rfl⟩
  | fullFrame d locals stack =>
    obtain ⟨rfl, rfl⟩ : locals.1.map (·.kind) = ls ∧ stack.1.map (·.kind) = st := by
      simpa [StackMapFrame.apply] using happ
    simp only [StackMapFrame.encode, cons_append, append_assoc, (readU8_literal _).2.2,
      readU16_encode, toNat_ofNat_length]
    rw [if_neg (by omega), if_neg (by omega), if_neg (by omega), if_neg (by omega),
      if_neg (by omega), if_neg (by omega), if_neg (by omega),
      show ([] : List ValidationType) = localSlots [] from rfl]
    rcases readLocals_encode _ locals.1 with hr | ⟨hfit, msg, hr⟩
    · rw [hr]
      dsimp only
      rw [readU16_encode, toNat_ofNat_length]
      dsimp only
      rcases readStack_encode stack.1 with hr | ⟨hfit, msg, hr⟩
      · rw [hr]
        exact .inl rfl
      · rw [hr]
        exact .inr ⟨fun h => hfit h.1, msg, rfl⟩
    · rw [hr]
      exact .inr ⟨fun h => hfit h.2, msg, rfl⟩

theorem next_encode (f : StackMapFrame) (hloc : it.locals = localSlots prev)
    (htab : it.table = f.encode ++ rest) (happ : f.apply prev = some (ls, st))
    (h : it.next maxStack maxLocals = .ok it') : it'.standsAt
      ⟨if it.isFirst then it.pc + f.offsetDelta else it.pc + f.offsetDelta + 1, ls, st⟩ rest := by
  rcases next_reads f hloc htab happ with hr | ⟨-, msg, hr⟩
  · exact finish_standsAt (hr.symm.trans h)
  · cases hr.symm.trans h

/-- The reader accepts an encoded frame that fits the limits of the method. -/
theorem next_encode_ok (f : StackMapFrame) (hloc : it.locals = localSlots prev)
    (htab : it.table = f.encode ++ rest) (happ : f.apply prev = some (ls, st))
    (hst : st.length ≤ maxStack) (hls : (localSlots ls).length ≤ maxLocals) :
    ∃ it', it.next maxStack maxLocals = .ok it' := by
  rcases next_reads f hloc htab happ with hr | ⟨hfit, -⟩
  · rw [hr]
    exact finish_ok hst hls
  · exact absurd ⟨hst, hls⟩ hfit

end TraceJvm
