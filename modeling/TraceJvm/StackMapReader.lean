import TraceJvm.StackMapDecoding
import TraceJvm.Lib.Transition

/-! The memory that the reader of `StackMapTable` attributes touches: its two heap buffers, which
have one entry more than the limits of the method, and the pointer for the error text. -/
namespace TraceJvm
open Transition Outcome List

/-- How a call of the reader ends without success. The last two are accesses outside of a buffer
and through the null pointer. -/
inductive ReaderFailure where
  | error (msg : String)
  | outOfBounds
  | nullError
  deriving DecidableEq

/-- `*error = msg`, with or without a place to store the text. -/
def ReaderFailure.report (hasError : Bool) (msg : String) : ReaderFailure :=
  if hasError then .error msg else .nullError

def reported {α : Type} (hasError : Bool) : Except String α → Except ReaderFailure α
  | .ok a => .ok a
  | .error msg => .error (.report hasError msg)

/-- A heap buffer of `n` entries. -/
abbrev ReaderBuffer (α : Type) (n : ℕ) := { l : List α // l.length = n }

def ReaderBuffer.load {α : Type} {n : ℕ} (b : ReaderBuffer α n) (i : ℤ) :
    Except ReaderFailure α :=
  if 0 ≤ i then
    match b.1[i.toNat]? with
    | some v => .ok v
    | none => .error .outOfBounds
  else .error .outOfBounds

def ReaderBuffer.store {α : Type} {n : ℕ} (b : ReaderBuffer α n) (i : ℕ) (v : α) :
    Except ReaderFailure (ReaderBuffer α n) :=
  if i < n then .ok ⟨b.1.set i v, by simp [b.2]⟩ else .error .outOfBounds

def allocateValidationBuffer {α : Type} (top : α) (count : ℕ) : ReaderBuffer α (count + 1) :=
  ⟨List.replicate (count + 1) top, length_replicate⟩

/-- `stack_map_frame_iterator` with its buffers. -/
structure BufferedIterator (maxLocals maxStack : ℕ) where
  pc : ℕ
  stack : ReaderBuffer ValidationKind (maxStack + 1)
  stackSize : ℕ
  locals : ReaderBuffer ValidationType (maxLocals + 1)
  localsSize : ℕ
  table : List UInt8
  hasNext : Bool
  isFirst : Bool

variable {maxLocals maxStack : ℕ}

/-- `read_verification_type` into the entry of a buffer. -/
def readTypeInto {α : Type} {n : ℕ} (hasError : Bool) (entry : ValidationKind → α)
    (b : ReaderBuffer α n) (i : ℕ) (t : List UInt8) :
    Except ReaderFailure (ReaderBuffer α n × ValidationKind × List UInt8) := do
  let (tag, t) ← reported hasError (readU8 t)
  match ValidationKind.ofTag tag with
  | none => .error (.report hasError "Invalid verification type")
  | some k =>
    let b ← b.store i (entry k)
    if k.hasPayload then
      let (_, t) ← reported hasError (readU16 t)
      return (b, k, t)
    else return (b, k, t)

/-- Stores the implicit `top` behind a wide local. -/
def storeTop (k : ValidationKind) (b : ReaderBuffer ValidationType (maxLocals + 1)) (size : ℕ) :
    Except ReaderFailure (ReaderBuffer ValidationType (maxLocals + 1) × ℕ) :=
  if k.isWide then (b.store size implicitTop).map fun b => (b, size + 1) else .ok (b, size)

/-- The loop over the locals of an `append_frame` or a `full_frame`. -/
def storeLocals (hasError : Bool) (msg : String) :
    ℕ → ReaderBuffer ValidationType (maxLocals + 1) × ℕ → List UInt8 →
      Except ReaderFailure ((ReaderBuffer ValidationType (maxLocals + 1) × ℕ) × List UInt8)
  | 0, r, t => .ok (r, t)
  | n + 1, (b, size), t => do
    let (b, k, t) ← readTypeInto hasError (fun k => ⟨k, false⟩) b size t
    let (b, size) ← storeTop k b (size + 1)
    if size > maxLocals then .error (.report hasError msg)
    else storeLocals hasError msg n (b, size) t

/-- The loop over the stack of a `full_frame`. -/
def storeStack (hasError : Bool) :
    ℕ → ReaderBuffer ValidationKind (maxStack + 1) × ℕ → List UInt8 →
      Except ReaderFailure ((ReaderBuffer ValidationKind (maxStack + 1) × ℕ) × List UInt8)
  | 0, r, t => .ok (r, t)
  | n + 1, (b, size), t => do
    let (b, _, t) ← readTypeInto hasError id b size t
    if size + 1 > maxStack then .error (.report hasError "full_frame stack overflow")
    else storeStack hasError n (b, size + 1) t

/-- The loop of `chop_frame`: the entry is read before the size is checked. -/
def chopSize (hasError : Bool) (b : ReaderBuffer ValidationType (maxLocals + 1)) :
    ℕ → ℤ → Except ReaderFailure ℤ
  | 0, size => .ok size
  | n + 1, size => do
    let v ← b.load (size - 1)
    let size := if v.isImplicitTop then size - 1 - 1 else size - 1
    if size < 0 then .error (.report hasError "chop_frame underflow")
    else chopSize hasError b n size

/-- The end of `stack_map_frame_iterator_next`. -/
def BufferedIterator.finish (hasError : Bool) (it : BufferedIterator maxLocals maxStack)
    (stack : ReaderBuffer ValidationKind (maxStack + 1) × ℕ)
    (locals : ReaderBuffer ValidationType (maxLocals + 1) × ℕ) (table : List UInt8)
    (offsetDelta : ℕ) : Except ReaderFailure (BufferedIterator maxLocals maxStack) :=
  if stack.2 > maxStack ∨ locals.2 > maxLocals then
    .error (.report hasError "Stack map frame overflow")
  else .ok
    { pc := if it.isFirst then it.pc + offsetDelta else it.pc + offsetDelta + 1
      stack := stack.1
      stackSize := stack.2
      locals := locals.1
      localsSize := locals.2
      table := table
      hasNext := !table.isEmpty
      isFirst := false }

/-- `stack_map_frame_iterator_next`. -/
def BufferedIterator.next (hasError : Bool) (it : BufferedIterator maxLocals maxStack) :
    Except ReaderFailure (BufferedIterator maxLocals maxStack) := do
  let (frameKind, t) ← reported hasError (readU8 it.table)
  let locals := (it.locals, it.localsSize)
  if frameKind ≤ 63 then it.finish hasError (it.stack, 0) locals t frameKind
  else if frameKind ≤ 127 then
    let (stack, _, t) ← readTypeInto hasError id it.stack 0 t
    it.finish hasError (stack, 1) locals t (frameKind - 64)
  else if frameKind ≤ 246 then .error (.report hasError "Reserved frame kind")
  else if frameKind = 247 then
    let (offsetDelta, t) ← reported hasError (readU16 t)
    let (stack, _, t) ← readTypeInto hasError id it.stack 0 t
    it.finish hasError (stack, 1) locals t offsetDelta
  else if frameKind ≤ 250 then
    let size ← chopSize hasError it.locals (251 - frameKind) it.localsSize
    let (offsetDelta, t) ← reported hasError (readU16 t)
    it.finish hasError (it.stack, 0) (it.locals, size.toNat) t offsetDelta
  else if frameKind = 251 then
    let (offsetDelta, t) ← reported hasError (readU16 t)
    it.finish hasError (it.stack, 0) locals t offsetDelta
  else if frameKind ≤ 254 then
    let (offsetDelta, t) ← reported hasError (readU16 t)
    let (locals, t) ← storeLocals hasError "append_frame locals overflow" (frameKind - 251)
      locals t
    it.finish hasError (it.stack, 0) locals t offsetDelta
  else
    let (offsetDelta, t) ← reported hasError (readU16 t)
    let (numLocals, t) ← reported hasError (readU16 t)
    let (locals, t) ← storeLocals hasError "full_frame locals overflow" numLocals (it.locals, 0) t
    let (numStack, t) ← reported hasError (readU16 t)
    let (stack, t) ← storeStack hasError numStack (it.stack, 0) t
    it.finish hasError stack locals t offsetDelta

/-- The stores of `init_locals`, one argument after the other. -/
def initLocalsFrom : List ValidationKind → ReaderBuffer ValidationType (maxLocals + 1) × ℕ →
    Except ReaderFailure (ReaderBuffer ValidationType (maxLocals + 1) × ℕ)
  | [], r => .ok r
  | k :: ks, (b, size) => do
    let b ← b.store size ⟨k, false⟩
    let r ← storeTop k b (size + 1)
    initLocalsFrom ks r

/-- `stack_map_frame_iterator_init`. The result of the call that skips a first frame is not looked
at; it has no place for an error text. -/
def CodeMethod.initBuffered (m : CodeMethod) :
    Except ReaderFailure (BufferedIterator m.maxLocals m.maxStack) := do
  let (locals, size) ← initLocalsFrom m.entryLocals
    (allocateValidationBuffer ⟨.top, false⟩ m.maxLocals, 0)
  let it : BufferedIterator m.maxLocals m.maxStack :=
    { pc := 0
      stack := allocateValidationBuffer .top m.maxStack
      stackSize := 0
      locals := locals
      localsSize := size
      table := m.stackMapTable.getD []
      hasNext := m.stackMapTable.isSome
      isFirst := true }
  if it.table.head? = some 0 then it.next false else .ok it

variable {α : Type}

theorem mirrors_reported (e : Bool) (x : Except String α) :
    Mirrors (.report e) Eq x (reported e x) := by
  cases x with
  | error msg => rfl
  | ok a => rfl

/-- The first entries of a buffer, up to the current size, are the list. -/
def ReaderBuffer.Holds {α : Type} {n : ℕ} (r : ReaderBuffer α n × ℕ) (l : List α) : Prop :=
  r.2 = l.length ∧ r.1.1.take r.2 = l

variable {n : ℕ}

theorem ReaderBuffer.holds_nil (b : ReaderBuffer α n) : Holds (b, 0) [] :=
  ⟨rfl, rfl⟩

theorem ReaderBuffer.Holds.store {n size : ℕ} {b : ReaderBuffer α n} {l : List α}
    (h : Holds (b, size) l) (hsize : size < n) (v : α) :
    ∃ b', b.store size v = .ok b' ∧ Holds (b', size + 1) (l ++ [v]) := by
  obtain ⟨hlen, htake⟩ := h
  dsimp only at hlen htake
  have hb : size < b.1.length := by rw [b.2]; exact hsize
  rw [ReaderBuffer.store, if_pos hsize]
  refine ⟨_, rfl, ?_, ?_⟩
  · show size + 1 = (l ++ [v]).length
    rw [length_append, ← hlen, length_singleton]
  · show (b.1.set size v).take (size + 1) = l ++ [v]
    rw [take_add_one, take_set_of_le (Nat.le_refl size), htake, getElem?_set_self hb]
    rfl

variable {size : ℕ}

theorem ReaderBuffer.Holds.front {n : ℕ} {b : ReaderBuffer α n} {l m : List α}
    (h : Holds (b, size) (l ++ m)) : Holds (b, l.length) l := by
  obtain ⟨hlen, htake⟩ := h
  dsimp only at hlen htake
  refine ⟨rfl, ?_⟩
  show b.1.take l.length = l
  have hle : l.length ≤ size := by rw [hlen, length_append]; omega
  calc b.1.take l.length = (b.1.take size).take l.length := by
        rw [take_take, Nat.min_eq_left hle]
    _ = l := by rw [htake, take_left]

theorem ReaderBuffer.Holds.load {n size : ℕ} {b : ReaderBuffer α n} {l : List α} {v : α}
    (h : Holds (b, size) (l ++ [v])) : b.load (size - 1 : ℤ) = .ok v := by
  obtain ⟨hlen, htake⟩ := h
  dsimp only at hlen htake
  have hsize : size = l.length + 1 := by
    rw [hlen, length_append, length_singleton]
  have hget : b.1[l.length]? = some v := by
    have := congrArg (fun m => m[l.length]?) htake
    simpa [getElem?_take, hsize] using this
  rw [ReaderBuffer.load, if_pos (by omega), show ((size : ℤ) - 1).toNat = l.length by omega, hget]

theorem store_outOfBounds (b : ReaderBuffer α n) {i : ℕ} (hi : n ≤ i) (v : α) :
    b.store i v = .error .outOfBounds :=
  if_neg (Nat.not_lt.mpr hi)

/-- Chopping succeeds as far as there are locals, and reads in front of the buffer beyond that. -/
theorem chopSize_localSlots (e : Bool) {b : ReaderBuffer ValidationType (maxLocals + 1)} (n : ℕ)
    (ks : List ValidationKind)
    (hb : ReaderBuffer.Holds (b, (localSlots ks).length) (localSlots ks)) :
    chopSize e b n (localSlots ks).length =
      if n ≤ ks.length then .ok ((localSlots (ks.take (ks.length - n))).length : ℤ)
      else .error .outOfBounds := by
  induction n generalizing ks with
  | zero => simp [chopSize]
  | succ n ih =>
    induction ks using List.reverseRecOn with
    | nil => simp [chopSize, localSlots, ReaderBuffer.load, bind, Except.bind]
    | append_singleton init k =>
      have htake : (init ++ [k]).take ((init ++ [k]).length - (n + 1)) =
          init.take (init.length - n) := by
        rw [take_append_of_le_length (by simp)]
        simp
      have hif {α : Type} (x y : α) : (if n + 1 ≤ (init ++ [k]).length then x else y) =
          if n ≤ init.length then x else y := by simp
      rw [hif, htake]
      rw [localSlots_append, localSlots_singleton] at hb ⊢
      have hinit : ReaderBuffer.Holds (b, (localSlots init).length) (localSlots init) := hb.front
      rw [← ih init hinit]
      cases hk : k.isWide with
      | true =>
        have hslots : localSlots init ++ k.slots =
            localSlots init ++ [(⟨k, false⟩ : ValidationType)] ++ [implicitTop] := by
          simp [ValidationKind.slots, hk]
        rw [hslots] at hb ⊢
        have hlen : ((localSlots init ++ [(⟨k, false⟩ : ValidationType)] ++
            [implicitTop]).length : ℤ) = (localSlots init).length + 2 := by
          simp
        rw [chopSize, hb.load]
        show (if (if implicitTop.isImplicitTop then _ else _) < (0 : ℤ) then _
          else chopSize e b n (if implicitTop.isImplicitTop then _ else _)) = _
        have htop : implicitTop.isImplicitTop = true := rfl
        rw [if_pos htop, hlen, if_neg (by omega)]
        congr 1
        omega
      | false =>
        have hslots : k.slots = [⟨k, false⟩] := by simp [ValidationKind.slots, hk]
        rw [hslots] at hb ⊢
        have hlen : ((localSlots init ++ [(⟨k, false⟩ : ValidationType)]).length : ℤ) =
            (localSlots init).length + 1 := by simp
        have htop : (⟨k, false⟩ : ValidationType).isImplicitTop = false := by
          simp [ValidationType.isImplicitTop]
        rw [chopSize, hb.load]
        show (if (if (⟨k, false⟩ : ValidationType).isImplicitTop then _ else _) < (0 : ℤ) then _
          else chopSize e b n (if (⟨k, false⟩ : ValidationType).isImplicitTop then _ else _)) = _
        rw [htop, if_neg Bool.false_ne_true, hlen, if_neg (by omega)]
        congr 1
        omega

theorem readTypeInto_mirrors {n : ℕ} (e : Bool) (entry : ValidationKind → α)
    {b : ReaderBuffer α n} {l : List α} (h : ReaderBuffer.Holds (b, size) l) (hsize : size < n)
    (t : List UInt8) :
    Mirrors (.report e) (fun p q => ReaderBuffer.Holds (q.1, size + 1) (l ++ [entry p.1]) ∧ q.2 = p)
      (readVerificationType t) (readTypeInto e entry b size t) := by
  apply (mirrors_reported e (readU8 t)).bind
  rintro ⟨tag, t⟩ _ - rfl
  dsimp only
  cases ValidationKind.ofTag tag with
  | none => rfl
  | some k =>
    obtain ⟨b', hb', hholds⟩ := h.store hsize (entry k)
    dsimp only
    rw [hb']
    cases hk : k.hasPayload with
    | false => exact ⟨hholds, rfl⟩
    | true =>
      apply (mirrors_reported e (readU16 t)).bind
      rintro ⟨payload, t⟩ _ - rfl
      exact ⟨hholds, rfl⟩

/-- No `long` or `double` is listed where the limit has been reached. -/
def wideLocalsFit (maxLocals : ℕ) : ℕ → ℕ → List UInt8 → Bool
  | 0, _, _ => true
  | n + 1, size, t =>
    match readVerificationType t with
    | .error _ => true
    | .ok (k, t) =>
      if k.isWide && size = maxLocals then false
      else size + k.slots.length > maxLocals || wideLocalsFit maxLocals n (size + k.slots.length) t

variable {l : List ValidationType}

theorem storeTop_holds {b : ReaderBuffer ValidationType (maxLocals + 1)} (k : ValidationKind)
    (h : ReaderBuffer.Holds (b, size + 1) (l ++ [⟨k, false⟩]))
    (hroom : k.isWide → size < maxLocals) :
    ∃ r, storeTop k b (size + 1) = .ok r ∧ ReaderBuffer.Holds r (l ++ k.slots) := by
  cases hk : k.isWide with
  | false =>
    refine ⟨(b, size + 1), by simp [storeTop, hk], ?_⟩
    simpa [ValidationKind.slots, hk] using h
  | true =>
    have hsize : size + 1 < maxLocals + 1 := Nat.add_lt_add_right (hroom hk) 1
    obtain ⟨b', hb', hholds⟩ := h.store hsize implicitTop
    refine ⟨(b', size + 1 + 1), by simp [storeTop, hk, hb', Except.map], ?_⟩
    simpa [ValidationKind.slots, hk] using hholds

variable {r : ReaderBuffer ValidationType (maxLocals + 1) × ℕ}

theorem storeLocals_mirrors (e : Bool) (msg : String) (n : ℕ)
    (h : ReaderBuffer.Holds r l) (hle : l.length ≤ maxLocals) (t : List UInt8)
    (hfit : wideLocalsFit maxLocals n l.length t = true) :
    Mirrors (.report e) (fun p q => ReaderBuffer.Holds q.1 p.1 ∧ q.2 = p.2)
      (readLocals maxLocals msg n l t) (storeLocals e msg n r t) := by
  induction n generalizing r l t with
  | zero => exact ⟨h, rfl⟩
  | succ n ih =>
    obtain ⟨b, size⟩ := r
    obtain ⟨rfl, htake⟩ : size = l.length ∧ _ := h
    have hread := readTypeInto_mirrors e (fun k => (⟨k, false⟩ : ValidationType)) ⟨rfl, htake⟩
      (Nat.lt_succ_of_le hle) t
    rw [wideLocalsFit] at hfit
    rw [readLocals, storeLocals]
    apply hread.bind
    rintro ⟨k, t'⟩ ⟨b', k', t''⟩ hv ⟨hholds, heq⟩
    obtain ⟨rfl, rfl⟩ := Prod.mk.inj heq
    rw [hv] at hfit
    dsimp only at hfit hholds ⊢
    have hroom : k'.isWide → l.length < maxLocals := by
      intro hwide
      rcases Nat.lt_or_eq_of_le hle with hlt | heq
      · exact hlt
      · simp [hwide, heq] at hfit
    obtain ⟨q, hq, hslots⟩ := storeTop_holds k' hholds hroom
    obtain ⟨b'', size⟩ := q
    obtain ⟨rfl, htake'⟩ : size = (l ++ k'.slots).length ∧ _ := hslots
    rw [hq]
    show Mirrors (ReaderFailure.report e) _ (if (l ++ k'.slots).length > maxLocals then _ else _)
      (if (l ++ k'.slots).length > maxLocals then _ else _)
    split
    · rfl
    · rename_i hover
      apply ih ⟨rfl, htake'⟩ (by omega)
      rw [length_append] at hover ⊢
      split at hfit
      · cases hfit
      · simpa [hover] using hfit

/-- A wide local that takes the last entry has its implicit `top` stored behind the buffer. -/
theorem storeLocals_outOfBounds (e : Bool) (msg : String) (n : ℕ)
    (h : ReaderBuffer.Holds r l) (hle : l.length ≤ maxLocals) (t : List UInt8)
    (hfit : wideLocalsFit maxLocals n l.length t = false) :
    storeLocals e msg n r t = .error .outOfBounds := by
  induction n generalizing r l t with
  | zero => cases hfit
  | succ n ih =>
    obtain ⟨b, size⟩ := r
    obtain ⟨rfl, htake⟩ : size = l.length ∧ _ := h
    have hread := readTypeInto_mirrors e (fun k => (⟨k, false⟩ : ValidationType)) ⟨rfl, htake⟩
      (Nat.lt_succ_of_le hle) t
    rw [wideLocalsFit] at hfit
    rw [storeLocals]
    cases hv : readVerificationType t with
    | error m =>
      rw [hv] at hfit
      cases hfit
    | ok p =>
      obtain ⟨k, t'⟩ := p
      rw [hv] at hread hfit
      cases hinto : readTypeInto e (fun k => (⟨k, false⟩ : ValidationType)) b l.length t with
      | error f =>
        rw [hinto] at hread
        exact hread.elim
      | ok q =>
        rw [hinto] at hread
        obtain ⟨b', k', t''⟩ := q
        obtain ⟨hholds, heq⟩ := hread
        obtain ⟨rfl, rfl⟩ := Prod.mk.inj heq
        dsimp only at hfit hholds
        show (storeTop k' b' (l.length + 1) >>= _) = _
        split at hfit
        · rename_i hwide
          obtain ⟨hk, hfull⟩ : k'.isWide = true ∧ l.length = maxLocals := by simpa using hwide
          rw [storeTop, if_pos hk, store_outOfBounds _ (by omega)]
          rfl
        · rename_i hwide
          have hroom : k'.isWide → l.length < maxLocals := by
            intro hk
            simp only [hk, Bool.true_and, decide_eq_true_eq] at hwide
            omega
          obtain ⟨⟨b'', size⟩, hq, hslots⟩ := storeTop_holds k' hholds hroom
          obtain ⟨rfl, htake'⟩ : size = (l ++ k'.slots).length ∧ _ := hslots
          obtain ⟨hover, hfit⟩ := Bool.or_eq_false_iff.mp hfit
          have hover : ¬ (l ++ k'.slots).length > maxLocals := by
            rw [length_append]
            simpa using hover
          rw [hq]
          show (if (l ++ k'.slots).length > maxLocals then _ else _) = _
          rw [if_neg hover]
          apply ih ⟨rfl, htake'⟩ (Nat.not_lt.mp hover)
          rw [length_append]
          exact hfit

theorem storeStack_mirrors (e : Bool) (n : ℕ)
    {r : ReaderBuffer ValidationKind (maxStack + 1) × ℕ} {l : List ValidationKind}
    (h : ReaderBuffer.Holds r l) (hle : l.length ≤ maxStack) (t : List UInt8) :
    Mirrors (.report e) (fun p q => ReaderBuffer.Holds q.1 p.1 ∧ q.2 = p.2)
      (readStack maxStack n l t) (storeStack e n r t) := by
  induction n generalizing r l t with
  | zero => exact ⟨h, rfl⟩
  | succ n ih =>
    obtain ⟨b, size⟩ := r
    obtain ⟨rfl, htake⟩ : size = l.length ∧ _ := h
    have hread := readTypeInto_mirrors e id ⟨rfl, htake⟩ (Nat.lt_succ_of_le hle) t
    rw [readStack, storeStack]
    apply hread.bind
    rintro ⟨k, t'⟩ ⟨b', k', t''⟩ - ⟨hholds, heq⟩
    obtain ⟨rfl, rfl⟩ := Prod.mk.inj heq
    have hlen : (l ++ [k']).length = l.length + 1 := by simp
    show Mirrors (ReaderFailure.report e) _ (if (l ++ [k']).length > maxStack then _ else _)
      (if l.length + 1 > maxStack then _ else _)
    rw [hlen]
    split
    · rfl
    · rename_i hover
      have hholds : ReaderBuffer.Holds (b', l.length + 1) (l ++ [k']) := hholds
      apply ih hholds
      rw [hlen]
      omega

/-- The number of locals, a `long` or `double` with its implicit `top` counted once. -/
def FrameIterator.entryCount (it : FrameIterator) : ℕ :=
  it.locals.countP fun v => !v.isImplicitTop

/-- The next frame of the table does not chop more locals than there are, nor list a `long` or
`double` where the limit has been reached. -/
def FrameIterator.roomFor (maxLocals : ℕ) (it : FrameIterator) : Bool :=
  match readU8 it.table with
  | .error _ => true
  | .ok (frameKind, t) =>
    if frameKind ≤ 247 then true
    else if frameKind ≤ 250 then 251 - frameKind ≤ it.entryCount
    else if frameKind = 251 then true
    else if frameKind ≤ 254 then
      match readU16 t with
      | .error _ => true
      | .ok (_, t) => wideLocalsFit maxLocals (frameKind - 251) it.locals.length t
    else
      match readU16 t with
      | .error _ => true
      | .ok (_, t) =>
        match readU16 t with
        | .error _ => true
        | .ok (numLocals, t) => wideLocalsFit maxLocals numLocals 0 t

structure BufferedIterator.Holds (b : BufferedIterator maxLocals maxStack) (it : FrameIterator) :
    Prop where
  pc : b.pc = it.pc
  stack : ReaderBuffer.Holds (b.stack, b.stackSize) it.stack
  locals : ReaderBuffer.Holds (b.locals, b.localsSize) it.locals
  table : b.table = it.table
  hasNext : b.hasNext = it.hasNext
  isFirst : b.isFirst = it.isFirst

variable {b : BufferedIterator maxLocals maxStack} {it : FrameIterator} {st : List ValidationKind}

variable {ls : List ValidationType}

theorem BufferedIterator.Holds.finish (e : Bool) (h : b.Holds it)
    {stack : ReaderBuffer ValidationKind (maxStack + 1) × ℕ}
    {locals : ReaderBuffer ValidationType (maxLocals + 1) × ℕ}
    (hstack : ReaderBuffer.Holds stack st) (hlocals : ReaderBuffer.Holds locals ls)
    (t : List UInt8) (delta : ℕ) :
    Mirrors (.report e) (fun it' b' => b'.Holds it') (it.finish maxStack maxLocals st ls t delta)
      (b.finish e stack locals t delta) := by
  rw [FrameIterator.finish, BufferedIterator.finish, hstack.1, hlocals.1]
  split
  · rfl
  · refine ⟨?_, ⟨rfl, ?_⟩, ⟨rfl, ?_⟩, rfl, rfl, rfl⟩
    · dsimp only
      rw [h.pc, h.isFirst]
    · rw [← hstack.1]
      exact hstack.2
    · rw [← hlocals.1]
      exact hlocals.2

theorem entryCount_localSlots (ks : List ValidationKind) :
    (localSlots ks).countP (fun v => !v.isImplicitTop) = ks.length := by
  induction ks with
  | nil => rfl
  | cons k ks ih =>
    have hslots : (k.slots).countP (fun v => !v.isImplicitTop) = 1 := by cases k <;> rfl
    have hcons : localSlots (k :: ks) = k.slots ++ localSlots ks := by simp [localSlots]
    rw [hcons, countP_append, ih, hslots, length_cons, Nat.add_comm]

variable {ks : List ValidationKind}

/-- Where there is room for the frame, both readers do the same. -/
theorem BufferedIterator.Holds.next (e : Bool) (h : b.Holds it) (hks : it.locals = localSlots ks)
    (hle : it.locals.length ≤ maxLocals) (hroom : it.roomFor maxLocals = true) :
    Mirrors (.report e) (fun it' b' => b'.Holds it') (it.next maxStack maxLocals) (b.next e) := by
  rw [FrameIterator.next, BufferedIterator.next, h.table]
  apply (mirrors_reported e (readU8 it.table)).bind
  rintro ⟨frameKind, t⟩ _ hread rfl
  rw [FrameIterator.roomFor, hread] at hroom
  dsimp only at hroom ⊢
  have hnil : ReaderBuffer.Holds (b.stack, 0) [] := ReaderBuffer.holds_nil b.stack
  have hone (delta : ℕ) (t : List UInt8) : Mirrors (.report e) (fun it' b' => b'.Holds it')
      (readVerificationType t >>= fun p => it.finish maxStack maxLocals [p.1] it.locals p.2 delta)
      (readTypeInto e id b.stack 0 t >>= fun q =>
        b.finish e (q.1, 1) (b.locals, b.localsSize) q.2.2 delta) := by
    apply (readTypeInto_mirrors e id hnil (Nat.succ_pos _) t).bind
    rintro ⟨k, t'⟩ ⟨b', k', t''⟩ - ⟨hholds, heq⟩
    obtain ⟨rfl, rfl⟩ := Prod.mk.inj heq
    exact h.finish e hholds h.locals t'' delta
  by_cases h63 : frameKind ≤ 63
  · rw [if_pos h63, if_pos h63]
    exact h.finish e hnil h.locals t frameKind
  rw [if_neg h63, if_neg h63]
  by_cases h127 : frameKind ≤ 127
  · rw [if_pos h127, if_pos h127]
    exact hone (frameKind - 64) t
  rw [if_neg h127, if_neg h127]
  by_cases h246 : frameKind ≤ 246
  · rw [if_pos h246, if_pos h246]
    rfl
  rw [if_neg h246, if_neg h246]
  by_cases h247 : frameKind = 247
  · rw [if_pos h247, if_pos h247]
    apply (mirrors_reported e (readU16 t)).bind
    rintro ⟨delta, t'⟩ _ - rfl
    exact hone delta t'
  rw [if_neg h247, if_neg h247]
  rw [if_neg (by omega)] at hroom
  by_cases h250 : frameKind ≤ 250
  · rw [if_pos h250, if_pos h250]
    rw [if_pos h250, FrameIterator.entryCount, hks, entryCount_localSlots,
      decide_eq_true_eq] at hroom
    have hsplit : localSlots ks = localSlots (ks.take (ks.length - (251 - frameKind))) ++
        localSlots (ks.drop (ks.length - (251 - frameKind))) := by
      rw [← localSlots_append, take_append_drop]
    have hlocals := h.locals
    have hsize := hlocals.1
    dsimp only at hsize
    rw [hks] at hsize hlocals
    rw [hks, chopLocals_localSlots _ _ hroom]
    rw [hsize] at hlocals ⊢
    rw [chopSize_localSlots e _ _ hlocals, if_pos hroom]
    apply (mirrors_reported e (readU16 t)).bind
    rintro ⟨delta, t'⟩ _ - rfl
    rw [hsplit] at hlocals
    exact h.finish e hnil hlocals.front t' delta
  rw [if_neg h250, if_neg h250]
  rw [if_neg h250] at hroom
  by_cases h251 : frameKind = 251
  · rw [if_pos h251, if_pos h251]
    apply (mirrors_reported e (readU16 t)).bind
    rintro ⟨delta, t'⟩ _ - rfl
    exact h.finish e hnil h.locals t' delta
  rw [if_neg h251, if_neg h251]
  rw [if_neg h251] at hroom
  by_cases h254 : frameKind ≤ 254
  · rw [if_pos h254, if_pos h254]
    rw [if_pos h254] at hroom
    apply (mirrors_reported e (readU16 t)).bind
    rintro ⟨delta, t'⟩ _ hdelta rfl
    rw [hdelta] at hroom
    dsimp only at hroom
    generalize frameKind - 251 = n at hroom ⊢
    have hstore := storeLocals_mirrors e "append_frame locals overflow" n h.locals hle t' hroom
    apply hstore.bind
    rintro ⟨ls, t''⟩ ⟨r, _⟩ - ⟨hholds, rfl⟩
    exact h.finish e hnil hholds _ delta
  rw [if_neg h254, if_neg h254]
  rw [if_neg h254] at hroom
  apply (mirrors_reported e (readU16 t)).bind
  rintro ⟨delta, t₁⟩ _ hdelta rfl
  rw [hdelta] at hroom
  apply (mirrors_reported e (readU16 t₁)).bind
  rintro ⟨numLocals, t₂⟩ _ hnum rfl
  dsimp only at hroom
  rw [hnum] at hroom
  dsimp only at hroom
  have hstore := storeLocals_mirrors e "full_frame locals overflow" numLocals
    (ReaderBuffer.holds_nil b.locals) (Nat.zero_le _) t₂ hroom
  apply hstore.bind
  rintro ⟨ls, t₃⟩ ⟨r, t₃'⟩ - ⟨hholds, ht₃⟩
  obtain rfl : t₃' = t₃ := ht₃
  apply (mirrors_reported e (readU16 t₃')).bind
  rintro ⟨numStack, t₄⟩ _ - rfl
  apply (storeStack_mirrors e numStack hnil (Nat.zero_le _) t₄).bind
  rintro ⟨st, t₅⟩ ⟨r', t₅'⟩ - ⟨hstack, ht₅⟩
  obtain rfl : t₅' = t₅ := ht₅
  exact h.finish e hstack hholds t₅' delta

/-- Where there is no room for the frame, the reader leaves its buffer. -/
theorem BufferedIterator.Holds.next_outOfBounds (e : Bool) (h : b.Holds it)
    (hks : it.locals = localSlots ks) (hle : it.locals.length ≤ maxLocals)
    (hroom : it.roomFor maxLocals = false) : b.next e = .error .outOfBounds := by
  rw [FrameIterator.roomFor] at hroom
  rw [BufferedIterator.next, h.table]
  cases hread : readU8 it.table with
  | error msg =>
    rw [hread] at hroom
    cases hroom
  | ok p =>
    obtain ⟨frameKind, t⟩ := p
    rw [hread] at hroom
    dsimp only at hroom
    by_cases h247 : frameKind ≤ 247
    · rw [if_pos h247] at hroom
      cases hroom
    rw [if_neg h247] at hroom
    show (if frameKind ≤ 63 then _ else if frameKind ≤ 127 then _ else if frameKind ≤ 246 then _
      else if frameKind = 247 then _ else _) = _
    rw [if_neg (by omega), if_neg (by omega), if_neg (by omega), if_neg (by omega)]
    by_cases h250 : frameKind ≤ 250
    · rw [if_pos h250]
      rw [if_pos h250, FrameIterator.entryCount, hks, entryCount_localSlots,
        decide_eq_false_iff_not] at hroom
      have hlocals := h.locals
      have hsize := hlocals.1
      dsimp only at hsize
      rw [hks] at hsize hlocals
      rw [hsize] at hlocals ⊢
      rw [chopSize_localSlots e _ _ hlocals, if_neg hroom]
      rfl
    rw [if_neg h250]
    rw [if_neg h250] at hroom
    by_cases h251 : frameKind = 251
    · rw [if_pos h251] at hroom
      cases hroom
    rw [if_neg h251]
    rw [if_neg h251] at hroom
    cases hdelta : readU16 t with
    | error msg =>
      simp only [hdelta, ite_self, Bool.true_eq_false] at hroom
    | ok q =>
      obtain ⟨delta, t₁⟩ := q
      rw [hdelta] at hroom
      dsimp only at hroom
      by_cases h254 : frameKind ≤ 254
      · rw [if_pos h254]
        rw [if_pos h254] at hroom
        generalize frameKind - 251 = n at hroom ⊢
        have hstore := storeLocals_outOfBounds e "append_frame locals overflow" n h.locals hle t₁
          hroom
        show (storeLocals e "append_frame locals overflow" n (b.locals, b.localsSize) t₁ >>= _) = _
        rw [hstore]
        rfl
      · rw [if_neg h254]
        rw [if_neg h254] at hroom
        cases hnum : readU16 t₁ with
        | error msg =>
          rw [hnum] at hroom
          cases hroom
        | ok q =>
          obtain ⟨numLocals, t₂⟩ := q
          rw [hnum] at hroom
          dsimp only at hroom
          have hstore := storeLocals_outOfBounds e "full_frame locals overflow" numLocals
            (ReaderBuffer.holds_nil b.locals) (Nat.zero_le _) t₂ hroom
          show (reported e (readU16 t₁) >>= _) = _
          rw [hnum]
          show (storeLocals e "full_frame locals overflow" numLocals (b.locals, 0) t₂ >>= _) = _
          rw [hstore]
          rfl

theorem chopLocals_paired
    (h : chopLocals n (localSlots ks) = .ok ls) : ∃ ks', ls = localSlots ks' := by
  induction n generalizing ks with
  | zero =>
    cases h
    exact ⟨ks, rfl⟩
  | succ n ih =>
    induction ks using List.reverseRecOn with
    | nil => cases h
    | append_singleton init k =>
      have hone := chopLocals_localSlots 1 (init ++ [k]) (by simp)
      have hinit : (init ++ [k]).take ((init ++ [k]).length - 1) = init := by simp
      rw [hinit] at hone
      suffices hrest : chopLocals n (localSlots init) = .ok ls from ih hrest
      rw [← h]
      have hlast : (localSlots (init ++ [k])).getLast? ≠ none := by
        rw [localSlots_append, localSlots_singleton, ValidationKind.slots]
        split <;> simp
      cases hv : (localSlots (init ++ [k])).getLast? with
      | none => exact absurd hv hlast
      | some v =>
        simp only [chopLocals, hv] at hone ⊢
        split
        · rename_i htop
          rw [if_pos htop] at hone
          split
          · rename_i hlt
            rw [if_pos hlt] at hone
            cases hone
          · rename_i hlt
            rw [if_neg hlt] at hone
            rw [Except.ok.inj hone]
        · rename_i htop
          rw [if_neg htop] at hone
          rw [Except.ok.inj hone]

variable {t t' : List UInt8}

theorem readU8_length (h : readU8 t = .ok (n, t')) : t'.length < t.length := by
  cases t with
  | nil => cases h
  | cons a t =>
    cases h
    exact Nat.lt_succ_self _

theorem readU16_length (h : readU16 t = .ok (n, t')) : t'.length < t.length := by
  match t with
  | [] | [_] => cases h
  | a :: b :: t =>
    cases h
    show t'.length < t'.length + 2
    omega

theorem readVerificationType_length {k : ValidationKind}
    (h : readVerificationType t = .ok (k, t')) : t'.length < t.length := by
  rw [readVerificationType] at h
  cases htag : readU8 t with
  | error msg =>
    rw [htag] at h
    cases h
  | ok p =>
    obtain ⟨tag, t₁⟩ := p
    have hlt := readU8_length htag
    rw [htag] at h
    change (match ValidationKind.ofTag tag with
      | none => _
      | some k => _) = _ at h
    cases hkind : ValidationKind.ofTag tag with
    | none =>
      rw [hkind] at h
      cases h
    | some k' =>
      rw [hkind] at h
      dsimp only at h
      split at h
      · cases hpay : readU16 t₁ with
        | error msg =>
          rw [hpay] at h
          cases h
        | ok q =>
          obtain ⟨payload, t₂⟩ := q
          have hpayload := readU16_length hpay
          rw [hpay] at h
          cases h
          exact Nat.lt_trans hpayload hlt
      · cases h
        exact hlt

theorem readLocals_paired {msg : String} {r : List ValidationType × List UInt8}
    (h : readLocals maxLocals msg n (localSlots ks) t = .ok r) :
    (∃ ks', r.1 = localSlots ks') ∧ r.2.length ≤ t.length := by
  induction n generalizing ks t with
  | zero =>
    cases h
    exact ⟨⟨ks, rfl⟩, Nat.le_refl _⟩
  | succ n ih =>
    rw [readLocals] at h
    cases hread : readVerificationType t with
    | error m =>
      rw [hread] at h
      cases h
    | ok p =>
      obtain ⟨k, t'⟩ := p
      have hlt := readVerificationType_length hread
      rw [hread] at h
      change (if (localSlots ks ++ k.slots).length > maxLocals then _ else
        readLocals maxLocals msg n (localSlots ks ++ k.slots) t') = _ at h
      split at h
      · cases h
      · rw [← localSlots_singleton, ← localSlots_append] at h
        obtain ⟨hpaired, hle⟩ := ih h
        exact ⟨hpaired, by omega⟩

theorem readStack_length
    {r : List ValidationKind × List UInt8} (h : readStack maxStack n st t = .ok r) :
    r.2.length ≤ t.length := by
  induction n generalizing st t with
  | zero =>
    cases h
    exact Nat.le_refl _
  | succ n ih =>
    rw [readStack] at h
    cases hread : readVerificationType t with
    | error m =>
      rw [hread] at h
      cases h
    | ok p =>
      obtain ⟨k, t'⟩ := p
      have hlt := readVerificationType_length hread
      rw [hread] at h
      change (if (st ++ [k]).length > maxStack then _ else readStack maxStack n (st ++ [k]) t') = _
        at h
      split at h
      · cases h
      · have := ih h
        omega

/-- What a successful step of the reader leaves behind: locals of which each `long` or `double`
has its implicit `top`, both sizes within the limits, and fewer bytes. -/
structure FrameIterator.Advanced (maxLocals maxStack : ℕ) (it it' : FrameIterator) : Prop where
  paired : ∃ ks, it'.locals = localSlots ks
  locals_le : it'.locals.length ≤ maxLocals
  stack_le : it'.stack.length ≤ maxStack
  table_lt : it'.table.length < it.table.length

variable {it' : FrameIterator}

theorem FrameIterator.Advanced.of_finish {it : FrameIterator} {delta : ℕ}
    (h : it.finish maxStack maxLocals st (localSlots ks) t delta = .ok it')
    (hlt : t.length < it.table.length) : it.Advanced maxLocals maxStack it' := by
  rw [FrameIterator.finish] at h
  split at h
  · cases h
  · rename_i hover
    cases h
    exact ⟨⟨ks, rfl⟩, by dsimp only; omega, by dsimp only; omega, hlt⟩

theorem FrameIterator.next_advanced {it : FrameIterator}
    (hks : it.locals = localSlots ks) (h : it.next maxStack maxLocals = .ok it') :
    it.Advanced maxLocals maxStack it' := by
  rw [FrameIterator.next] at h
  obtain ⟨⟨frameKind, t⟩, hread, h⟩ := bind_eq_ok.mp h
  have hlt := readU8_length hread
  have hone {k : ValidationKind} {t₁ t₂ : List UInt8} {delta : ℕ}
      (hk : readVerificationType t₁ = .ok (k, t₂)) (hle : t₁.length ≤ t.length)
      (hfin : it.finish maxStack maxLocals [k] it.locals t₂ delta = .ok it') :
      it.Advanced maxLocals maxStack it' := by
    rw [hks] at hfin
    have hless := readVerificationType_length hk
    exact .of_finish hfin (by omega)
  dsimp only at h
  by_cases h63 : frameKind ≤ 63
  · rw [if_pos h63, hks] at h
    exact .of_finish h hlt
  rw [if_neg h63] at h
  by_cases h127 : frameKind ≤ 127
  · rw [if_pos h127] at h
    obtain ⟨⟨k, t₁⟩, hk, hfin⟩ := bind_eq_ok.mp h
    exact hone hk (Nat.le_refl _) hfin
  rw [if_neg h127] at h
  by_cases h246 : frameKind ≤ 246
  · rw [if_pos h246] at h
    cases h
  rw [if_neg h246] at h
  by_cases h247 : frameKind = 247
  · rw [if_pos h247] at h
    obtain ⟨⟨delta, t₁⟩, hdelta, h⟩ := bind_eq_ok.mp h
    obtain ⟨⟨k, t₂⟩, hk, hfin⟩ := bind_eq_ok.mp h
    exact hone hk (Nat.le_of_lt (readU16_length hdelta)) hfin
  rw [if_neg h247] at h
  by_cases h250 : frameKind ≤ 250
  · rw [if_pos h250] at h
    obtain ⟨ls, hchop, h⟩ := bind_eq_ok.mp h
    obtain ⟨⟨delta, t₁⟩, hdelta, hfin⟩ := bind_eq_ok.mp h
    rw [hks] at hchop
    obtain ⟨ks', rfl⟩ := chopLocals_paired hchop
    exact .of_finish hfin (Nat.lt_trans (readU16_length hdelta) hlt)
  rw [if_neg h250] at h
  by_cases h251 : frameKind = 251
  · rw [if_pos h251] at h
    obtain ⟨⟨delta, t₁⟩, hdelta, hfin⟩ := bind_eq_ok.mp h
    rw [hks] at hfin
    exact .of_finish hfin (Nat.lt_trans (readU16_length hdelta) hlt)
  rw [if_neg h251] at h
  by_cases h254 : frameKind ≤ 254
  · rw [if_pos h254] at h
    obtain ⟨⟨delta, t₁⟩, hdelta, h⟩ := bind_eq_ok.mp h
    obtain ⟨⟨ls, t₂⟩, hlocals, hfin⟩ := bind_eq_ok.mp h
    rw [hks] at hlocals
    obtain ⟨⟨ks', hks'⟩, hle⟩ := readLocals_paired hlocals
    dsimp only at hks' hle hfin
    rw [hks'] at hfin
    have hless := readU16_length hdelta
    exact .of_finish hfin (by omega)
  rw [if_neg h254] at h
  obtain ⟨⟨delta, t₁⟩, hdelta, h⟩ := bind_eq_ok.mp h
  obtain ⟨⟨numLocals, t₂⟩, hnum, h⟩ := bind_eq_ok.mp h
  obtain ⟨⟨ls, t₃⟩, hlocals, h⟩ := bind_eq_ok.mp h
  obtain ⟨⟨numStack, t₄⟩, hstack, h⟩ := bind_eq_ok.mp h
  obtain ⟨⟨st, t₅⟩, hread, hfin⟩ := bind_eq_ok.mp h
  change readLocals maxLocals _ numLocals (localSlots []) t₂ = _ at hlocals
  obtain ⟨⟨ks', hks'⟩, hle⟩ := readLocals_paired hlocals
  dsimp only at hks' hle hfin
  rw [hks'] at hfin
  have h₁ := readU16_length hdelta
  have h₂ := readU16_length hnum
  have h₃ := readU16_length hstack
  have h₄ := readStack_length hread
  dsimp only at h₂ h₃ h₄
  exact .of_finish hfin (by omega)

def FrameIterator.readStep (maxStack maxLocals : ℕ) (it : FrameIterator) (_ : Unit) :
    Option FrameIterator :=
  if it.hasNext then (it.next maxStack maxLocals).toOption else none

def BufferedIterator.readStep (it : BufferedIterator maxLocals maxStack) (_ : Unit) :
    Option (BufferedIterator maxLocals maxStack) :=
  if it.hasNext then (it.next true).toOption else none

/-- `init_locals` fills its buffer as far as the arguments fit, and one slot further. -/
theorem initLocalsFrom_holds
    (h : ReaderBuffer.Holds r l) (hle : l.length + (localSlots ks).length ≤ maxLocals + 1) :
    ∃ r', initLocalsFrom ks r = .ok r' ∧ ReaderBuffer.Holds r' (l ++ localSlots ks) := by
  induction ks generalizing r l with
  | nil => exact ⟨r, rfl, by simpa [localSlots] using h⟩
  | cons k ks ih =>
    obtain ⟨b, size⟩ := r
    obtain ⟨rfl, htake⟩ : size = l.length ∧ _ := h
    have hcons : localSlots (k :: ks) = k.slots ++ localSlots ks := by simp [localSlots]
    rw [hcons, length_append] at hle
    have hslots : 0 < k.slots.length := by cases k <;> decide
    obtain ⟨b', hb', hholds⟩ := ReaderBuffer.Holds.store ⟨rfl, htake⟩
      (show l.length < maxLocals + 1 by omega) (⟨k, false⟩ : ValidationType)
    have hroom : k.isWide → l.length < maxLocals := by
      intro hk
      have hwide : k.slots.length = 2 := by simp [ValidationKind.slots, hk]
      omega
    obtain ⟨r', hr', hholds'⟩ := storeTop_holds k hholds hroom
    rw [initLocalsFrom, hb', hcons]
    show ∃ r'', (storeTop k b' (l.length + 1) >>= _) = _ ∧ _
    rw [hr', ← append_assoc]
    apply ih hholds'
    rw [length_append]
    omega

theorem initLocalsFrom_outOfBounds (h : ReaderBuffer.Holds r l) (hle : l.length ≤ maxLocals + 1)
    (hover : maxLocals + 1 < l.length + (localSlots ks).length) :
    initLocalsFrom ks r = .error .outOfBounds := by
  induction ks generalizing r l with
  | nil =>
    have hnil : (localSlots []).length = 0 := rfl
    omega
  | cons k ks ih =>
    obtain ⟨b, size⟩ := r
    obtain ⟨rfl, htake⟩ : size = l.length ∧ _ := h
    have hcons : localSlots (k :: ks) = k.slots ++ localSlots ks := by simp [localSlots]
    rw [hcons, length_append] at hover
    rw [initLocalsFrom]
    rcases Nat.lt_or_eq_of_le hle with hlt | heq
    · obtain ⟨b', hb', hholds⟩ := ReaderBuffer.Holds.store ⟨rfl, htake⟩ hlt
        (⟨k, false⟩ : ValidationType)
      rw [hb']
      show (storeTop k b' (l.length + 1) >>= _) = _
      by_cases hroom : k.isWide → l.length < maxLocals
      · obtain ⟨r', hr', hholds'⟩ := storeTop_holds k hholds hroom
        have hslots : l.length + k.slots.length ≤ maxLocals + 1 := by
          rw [ValidationKind.slots]
          split
          · rename_i hk
            have := hroom hk
            show l.length + 2 ≤ maxLocals + 1
            omega
          · exact hlt
        rw [hr']
        apply ih hholds'
        · rw [length_append]
          exact hslots
        · rw [length_append]
          omega
      · obtain ⟨hk, hfull⟩ := Classical.not_imp.mp hroom
        rw [storeTop, if_pos hk, store_outOfBounds _ (by omega)]
        rfl
    · rw [store_outOfBounds _ (by omega)]
      rfl

/-- The bytes of the table and the locals, each `long` or `double` with its implicit `top`. -/
structure FrameIterator.Sized (maxLocals maxStack bytes : ℕ) (it : FrameIterator) : Prop where
  paired : ∃ ks, it.locals = localSlots ks
  locals_le : it.locals.length ≤ maxLocals
  stack_le : it.stack.length ≤ maxStack
  table_le : it.table.length ≤ bytes

/-- The reader gets through the table: it starts, ends after as many frames as the table has bytes
at most, keeps both sizes within their limits after every frame, and a frame that it does not
accept makes it return with an error text and without an access outside of its buffers. -/
structure ReadsTable (m : CodeMethod) : Prop where
  starts : ∃ it, m.initBuffered = .ok it
  ends : ∀ it w it', m.initBuffered = .ok it → run BufferedIterator.readStep it w = some it' →
    w.length ≤ (m.stackMapTable.getD []).length
  sizes : ∀ it w it', m.initBuffered = .ok it → run BufferedIterator.readStep it w = some it' →
    it'.localsSize ≤ m.maxLocals ∧ it'.stackSize ≤ m.maxStack
  reports : ∀ it w it' f, m.initBuffered = .ok it → run BufferedIterator.readStep it w = some it' →
    it'.next true = .error f → ∃ msg, f = .error msg

/-- The slots of `this` and of the arguments are within `max_locals`, and each frame that is read
chops no more locals than the frame before it has and lists no `long` or `double` where the limit
has been reached. -/
structure FramesHaveRoom (m : CodeMethod) : Prop where
  entry : m.initLocals.length ≤ m.maxLocals
  frames : ∀ it w it', m.initIterator = .ok it →
    run (FrameIterator.readStep m.maxStack m.maxLocals) it w = some it' →
    it'.roomFor m.maxLocals = true

variable {bytes : ℕ}

theorem FrameIterator.Sized.readStep {it : FrameIterator}
    (h : it.Sized maxLocals maxStack bytes) (hstep : it.readStep maxStack maxLocals () = some it') :
    it'.Sized maxLocals maxStack bytes ∧ it'.table.length < it.table.length := by
  rw [FrameIterator.readStep] at hstep
  split at hstep
  · obtain ⟨ks, hks⟩ := h.paired
    cases hnext : it.next maxStack maxLocals with
    | error msg =>
      rw [hnext] at hstep
      cases hstep
    | ok it'' =>
      rw [hnext] at hstep
      cases hstep
      have hadv := FrameIterator.next_advanced hks hnext
      have htable := h.table_le
      have hlt := hadv.table_lt
      exact ⟨⟨hadv.paired, hadv.locals_le, hadv.stack_le, by omega⟩, hlt⟩
  · cases hstep

/-- Where there is room for the frame, the two readers take the same step. -/
theorem BufferedIterator.Holds.readStep (h : b.Holds it) (hs : it.Sized maxLocals maxStack bytes)
    (hroom : it.roomFor maxLocals = true) :
    (∀ it', it.readStep maxStack maxLocals () = some it' →
      ∃ b', b.readStep () = some b' ∧ b'.Holds it') ∧
    (∀ b', b.readStep () = some b' →
      ∃ it', it.readStep maxStack maxLocals () = some it' ∧ b'.Holds it') := by
  obtain ⟨ks, hks⟩ := hs.paired
  have hnext := h.next true hks hs.locals_le hroom
  rw [FrameIterator.readStep, BufferedIterator.readStep, h.hasNext]
  constructor
  · intro it' hit'
    split at hit'
    · rename_i hhas
      cases hx : it.next maxStack maxLocals with
      | error msg =>
        rw [hx] at hit'
        cases hit'
      | ok it'' =>
        rw [hx] at hit' hnext
        cases hit'
        obtain ⟨b', hb', hholds⟩ := hnext.of_ok
        exact ⟨b', by rw [if_pos hhas, hb']; rfl, hholds⟩
    · cases hit'
  · intro b' hb'
    split at hb'
    · rename_i hhas
      cases hy : b.next true with
      | error f =>
        rw [hy] at hb'
        cases hb'
      | ok b'' =>
        rw [hy] at hb' hnext
        cases hb'
        obtain ⟨it', hit', hholds⟩ := hnext.ok_of
        exact ⟨it', by rw [if_pos hhas, hit']; rfl, hholds⟩
    · cases hb'

theorem initBuffered_holds {m : CodeMethod} (hfit : m.initLocals.length ≤ m.maxLocals) :
    ∃ it b, m.initIterator = .ok it ∧ m.initBuffered = .ok b ∧ b.Holds it ∧
      it.Sized m.maxLocals m.maxStack (m.stackMapTable.getD []).length := by
  have hlocals : m.freshIterator.locals = localSlots m.entryLocals := initLocals_eq m
  have hempty : ReaderBuffer.Holds
      (allocateValidationBuffer (⟨.top, false⟩ : ValidationType) m.maxLocals, 0) [] :=
    ReaderBuffer.holds_nil _
  obtain ⟨⟨locals, size⟩, hinit, hholds⟩ := initLocalsFrom_holds hempty
    (show [].length + (localSlots m.entryLocals).length ≤ m.maxLocals + 1 by
      rw [← hlocals]
      show 0 + m.initLocals.length ≤ m.maxLocals + 1
      omega)
  have hsized : m.freshIterator.Sized m.maxLocals m.maxStack (m.stackMapTable.getD []).length :=
    ⟨⟨_, hlocals⟩, hfit, Nat.zero_le _, Nat.le_refl _⟩
  rw [nil_append, ← hlocals] at hholds
  let fresh : BufferedIterator m.maxLocals m.maxStack :=
    { pc := 0
      stack := allocateValidationBuffer .top m.maxStack
      stackSize := 0
      locals := locals
      localsSize := size
      table := m.stackMapTable.getD []
      hasNext := m.stackMapTable.isSome
      isFirst := true }
  have hfresh : fresh.Holds m.freshIterator :=
    ⟨rfl, ReaderBuffer.holds_nil _, hholds, rfl, rfl, rfl⟩
  have hiter : m.initIterator = if m.freshIterator.table.head? = some 0 then
      m.freshIterator.next m.maxStack m.maxLocals else .ok m.freshIterator := rfl
  have hbuffered : m.initBuffered = if m.freshIterator.table.head? = some 0 then
      fresh.next false else .ok fresh := by
    rw [CodeMethod.initBuffered, hinit]
    rfl
  rw [hiter, hbuffered]
  by_cases hhead : m.freshIterator.table.head? = some 0
  · rw [if_pos hhead, if_pos hhead]
    obtain ⟨rest, hrest⟩ := head?_eq_some_iff.mp hhead
    have hread : readU8 m.freshIterator.table = .ok (0, rest) := by
      rw [hrest]
      rfl
    have hroom : m.freshIterator.roomFor m.maxLocals = true := by
      rw [FrameIterator.roomFor, hread]
      rfl
    obtain ⟨it, hnext, -⟩ := freshIterator_skip hhead hfit
    have hmirror := hfresh.next false hlocals hfit hroom
    rw [hnext] at hmirror
    obtain ⟨b, hb, hb'⟩ := hmirror.of_ok
    have hadv := FrameIterator.next_advanced hlocals hnext
    exact ⟨_, b, hnext, hb, hb', hadv.paired, hadv.locals_le, hadv.stack_le,
      Nat.le_of_lt hadv.table_lt⟩
  · rw [if_neg hhead, if_neg hhead]
    exact ⟨_, _, rfl, rfl, hfresh, hsized⟩

/-- Arguments that take more than `max_locals` slots overrun the buffer, or leave an iterator that
is over its limit and cannot report that. -/
theorem ReadsTable.entry {m : CodeMethod} (h : ReadsTable m) :
    m.initLocals.length ≤ m.maxLocals := by
  by_contra hover
  have hlocals : m.initLocals = localSlots m.entryLocals := initLocals_eq m
  have hempty : ReaderBuffer.Holds
      (allocateValidationBuffer (⟨.top, false⟩ : ValidationType) m.maxLocals, 0) [] :=
    ReaderBuffer.holds_nil _
  obtain ⟨it, hit⟩ := h.starts
  have hit₀ := hit
  rw [CodeMethod.initBuffered] at hit
  obtain ⟨⟨locals, size⟩, hinit, hit⟩ := bind_eq_ok.mp hit
  dsimp only at hit
  by_cases hslop : m.initLocals.length = m.maxLocals + 1
  · obtain ⟨r, hr, hholds⟩ := initLocalsFrom_holds hempty
      (show [].length + (localSlots m.entryLocals).length ≤ m.maxLocals + 1 by
        rw [← hlocals, hslop]
        show 0 + _ ≤ _
        omega)
    rw [hinit] at hr
    cases hr
    have hsize : size = m.maxLocals + 1 := by
      rw [← hslop, hlocals]
      exact hholds.1
    split at hit
    · rename_i hhead
      obtain ⟨rest, hrest⟩ := head?_eq_some_iff.mp hhead
      rw [BufferedIterator.next, hrest] at hit
      change (if (0 : ℕ) > m.maxStack ∨ size > m.maxLocals then _ else _) = _ at hit
      rw [if_pos (by omega)] at hit
      cases hit
    · cases hit
      have := (h.sizes _ [] _ hit₀ rfl).1
      dsimp only at this
      omega
  · rw [initLocalsFrom_outOfBounds hempty (Nat.zero_le _) (by
      rw [← hlocals]
      show _ < 0 + _
      omega)] at hinit
    cases hinit

variable {w : List Unit}

theorem run_readStep_cons {σ : Type} {step : σ → Unit → Option σ} {u v : σ}
    (h : step u () = some v) : run step u (() :: w) = run step v w := by
  rw [run, h, Option.bind_some]

/-- With room for every frame, the reader over buffers follows the one over lists. -/
theorem BufferedIterator.Holds.run {b b' : BufferedIterator maxLocals maxStack} (h : b.Holds it)
    (hs : it.Sized maxLocals maxStack bytes)
    (hroom : ∀ w it', Transition.run (FrameIterator.readStep maxStack maxLocals) it w = some it' →
      it'.roomFor maxLocals = true)
    (hrun : Transition.run BufferedIterator.readStep b w = some b') :
    ∃ it', Transition.run (FrameIterator.readStep maxStack maxLocals) it w = some it' ∧
      b'.Holds it' ∧ it'.Sized maxLocals maxStack bytes ∧
      w.length + it'.table.length ≤ it.table.length := by
  induction w generalizing b it with
  | nil =>
    cases hrun
    exact ⟨it, rfl, h, hs, by rw [length_nil]; omega⟩
  | cons a w ih =>
    obtain ⟨b₁, hb₁, hrest⟩ := Option.bind_eq_some_iff.mp hrun
    obtain ⟨it₁, hit₁, hholds⟩ := (h.readStep hs (hroom [] it rfl)).2 b₁ hb₁
    obtain ⟨hs₁, hlt⟩ := hs.readStep hit₁
    have hroom₁ : ∀ w it', Transition.run (FrameIterator.readStep maxStack maxLocals) it₁ w =
        some it' → it'.roomFor maxLocals = true := by
      intro w it' hw
      apply hroom (() :: w) it'
      rw [run_readStep_cons hit₁, hw]
    obtain ⟨it', hit', hholds', hs', hlen⟩ := ih hholds hs₁ hroom₁ hrest
    refine ⟨it', by rw [run_readStep_cons hit₁, hit'], hholds', hs', ?_⟩
    rw [length_cons]
    omega

theorem BufferedIterator.Holds.roomFor_of_reports (h : b.Holds it)
    (hs : it.Sized maxLocals maxStack bytes)
    (hreports : ∀ f, b.next true = .error f → ∃ msg, f = .error msg) :
    it.roomFor maxLocals = true := by
  by_contra hno
  obtain ⟨ks, hks⟩ := hs.paired
  have hfault := h.next_outOfBounds true hks hs.locals_le (Bool.eq_false_iff.mpr hno)
  obtain ⟨msg, hmsg⟩ := hreports _ hfault
  cases hmsg

/-- A reader that reports every failure has room for every frame that it reaches. -/
theorem BufferedIterator.Holds.run_roomFor {it : FrameIterator} (h : b.Holds it)
    (hs : it.Sized maxLocals maxStack bytes)
    (hreports : ∀ w b' f, Transition.run BufferedIterator.readStep b w = some b' →
      b'.next true = .error f → ∃ msg, f = .error msg)
    (hrun : Transition.run (FrameIterator.readStep maxStack maxLocals) it w = some it') :
    it'.roomFor maxLocals = true := by
  have hhere : it.roomFor maxLocals = true :=
    h.roomFor_of_reports hs fun f => hreports [] b f rfl
  induction w generalizing b it with
  | nil =>
    cases hrun
    exact hhere
  | cons a w ih =>
    obtain ⟨it₁, hit₁, hrest⟩ := Option.bind_eq_some_iff.mp hrun
    obtain ⟨b₁, hb₁, hholds⟩ := (h.readStep hs hhere).1 it₁ hit₁
    obtain ⟨hs₁, -⟩ := hs.readStep hit₁
    have hreports₁ : ∀ w b' f, Transition.run BufferedIterator.readStep b₁ w = some b' →
        b'.next true = .error f → ∃ msg, f = .error msg := by
      intro w b' f hw
      apply hreports (() :: w) b' f
      rw [run_readStep_cons hb₁, hw]
    exact ih hholds hs₁ hreports₁ hrest
      (hholds.roomFor_of_reports hs₁ fun f => hreports₁ [] b₁ f rfl)

/-- The reader gets through a table without leaving its buffers exactly if the arguments fit and
each frame has room. -/
theorem readsTable_iff (m : CodeMethod) : ReadsTable m ↔ FramesHaveRoom m := by
  constructor
  · intro h
    refine ⟨h.entry, fun it w it' hit hrun => ?_⟩
    obtain ⟨it₀, b₀, hit₀, hb₀, hholds, hsized⟩ := initBuffered_holds h.entry
    rw [hit] at hit₀
    cases hit₀
    exact hholds.run_roomFor hsized (fun w b' f => h.reports b₀ w b' f hb₀) hrun
  · intro h
    obtain ⟨it₀, b₀, hit₀, hb₀, hholds, hsized⟩ := initBuffered_holds h.entry
    have hfollow : ∀ it w it', m.initBuffered = .ok it →
        run BufferedIterator.readStep it w = some it' →
        ∃ l, it'.Holds l ∧ l.Sized m.maxLocals m.maxStack (m.stackMapTable.getD []).length ∧
          w.length ≤ (m.stackMapTable.getD []).length ∧ l.roomFor m.maxLocals = true := by
      intro it w it' hit hrun
      rw [hb₀] at hit
      cases hit
      obtain ⟨l, hl, hholds', hs', hlen⟩ := hholds.run hsized
        (fun w it' hw => h.frames it₀ w it' hit₀ hw) hrun
      have htable := hsized.table_le
      exact ⟨l, hholds', hs', by omega, h.frames it₀ w l hit₀ hl⟩
    refine ⟨⟨b₀, hb₀⟩, ?_, ?_, ?_⟩
    · intro it w it' hit hrun
      obtain ⟨-, -, -, hlen, -⟩ := hfollow it w it' hit hrun
      exact hlen
    · intro it w it' hit hrun
      obtain ⟨l, hl, hs, -, -⟩ := hfollow it w it' hit hrun
      have hlocals : it'.localsSize = l.locals.length := hl.locals.1
      have hstack : it'.stackSize = l.stack.length := hl.stack.1
      rw [hlocals, hstack]
      exact ⟨hs.locals_le, hs.stack_le⟩
    · intro it w it' f hit hrun hf
      obtain ⟨l, hl, hs, -, hroom⟩ := hfollow it w it' hit hrun
      obtain ⟨ks, hks⟩ := hs.paired
      have hmirror := hl.next true hks hs.locals_le hroom
      rw [hf] at hmirror
      exact hmirror.error_of

/-- A static method without arguments whose table chops a local that is not there. -/
def choppedEmpty : CodeMethod where
  maxStack := 0
  maxLocals := 0
  code := []
  exceptionTable := []
  lvt := []
  stackMapTable := some [250, 0, 0]
  pc_zero := by simp
  pc_lt := by simp
  isStatic := true
  isCtor := false
  descriptor := .empty
  missingSmt := false
  missing_eq := choppedArgument.missing_eq

/-- The reader looks at the entry in front of the buffer before it sees the underflow. -/
theorem choppedEmpty_outOfBounds :
    (choppedEmpty.initBuffered.bind (BufferedIterator.next true)).isOk = false ∧
      ¬ ReadsTable choppedEmpty := by
  refine ⟨rfl, fun h => ?_⟩
  obtain ⟨it, hit⟩ := h.starts
  have hfault : choppedEmpty.initBuffered.bind (BufferedIterator.next true) =
      .error .outOfBounds := rfl
  rw [hit] at hfault
  obtain ⟨msg, hmsg⟩ := h.reports it [] it _ hit rfl hfault
  cases hmsg

end TraceJvm
