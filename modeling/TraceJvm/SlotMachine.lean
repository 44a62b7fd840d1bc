import TraceJvm.MethodTyping

/-! One activation of the original bytecode on the frames of JVMS 2.6, where a `long` or `double`
takes two slots of the operand stack and of the locals. -/
namespace TraceJvm

inductive Slot where
  | whole (v : Value)
  | high (v : Value)
  | low (v : Value)
  deriving DecidableEq

def Value.slots (v : Value) : List Slot :=
  if v.kind.isWide then [.low v, .high v] else [.whole v]

def argumentSlots (args : List Value) : List Slot := args.flatMap fun v => v.slots.reverse

/-- Reads a local of kind `k`. -/
def readSlots (locals : List Slot) (n : ℕ) (k : TypeKind) : Option Value :=
  if k.isWide then
    match locals[n]?, locals[n + 1]? with
    | some (.high x), some (.low y) => if x = y then some x else none
    | _, _ => none
  else
    match locals[n]? with
    | some (.whole x) => some x
    | _ => none

def writeSlots (locals : List Slot) (n : ℕ) (v : Value) : Option (List Slot) :=
  if v.kind.isWide then
    if n + 1 < locals.length then some ((locals.set n (.high v)).set (n + 1) (.low v)) else none
  else if n < locals.length then some (locals.set n (.whole v))
  else none

/-- The slots of a result; `void` is no result. -/
def resultSlots (k : TypeKind) (v : Value) : List Slot := if k = .void then [] else v.slots

/-- The stack and the locals after an instruction that reads `operands` and computes `v`. The stack
instructions move slots, whatever they are part of. -/
def execSlots (insn : Instruction) (operands : List Value) (v : Value)
    (stack locals : List Slot) : Option (List Slot × List Slot) :=
  match loadKind insn.kind, storeKind insn.kind with
  | some k, _ =>
    (readSlots locals insn.index k).bind fun x =>
      if operands = [x] then some (x.slots ++ stack, locals) else none
  | none, some k =>
    match operands with
    | [x] =>
      if x.kind = k ∧ x.slots <+: stack then
        (writeSlots locals insn.index x).map fun ls => (stack.drop x.slots.length, ls)
      else none
    | _ => none
  | none, none =>
    if insn.kind = .iinc then
      (readSlots locals insn.index .int).bind fun x =>
        if operands = [x] ∧ v.kind = .int then
          (writeSlots locals insn.index v).map fun ls => (stack, ls)
        else none
    else if insn.kind.isShuffle then
      if operands = [] then (shuffleSlots insn.kind stack).map fun st => (st, locals) else none
    else
      (jvmsEffect insn).bind fun e =>
        if operands.map Value.kind = e.1 ∧ operands.flatMap Value.slots <+: stack ∧
            (e.2 = .void ∨ v.kind = e.2) then
          some (resultSlots e.2 v ++ stack.drop (operands.flatMap Value.slots).length, locals)
        else none

structure SlotFrame where
  pc : ℕ
  stack : List Slot
  locals : List Slot

def slotStep (table : List ExceptionEntry) (code : List Instruction) (s : SlotFrame) :
    FrameEvent → Option SlotFrame
  | .proceed operands v target =>
    (code[s.pc]?).bind fun insn =>
      if target ∈ insn.branchTargets ∨ insn.kind.terminates = false ∧ target = s.pc + 1 then
        (execSlots insn operands v s.stack s.locals).map fun r => ⟨target, r.1, r.2⟩
      else none
  | .caught e x =>
    if e ∈ table ∧ e.covers s.pc ∧ s.pc < code.length then
      some ⟨e.handlerInsn, (Value.reference (some x)).slots, s.locals⟩
    else none

variable {v : Value}

theorem Value.slots_inj {w : Value} {r s : List Slot} (hk : v.kind = w.kind)
    (h : v.slots ++ r = w.slots ++ s) : v = w ∧ r = s := by
  unfold Value.slots at h
  rw [hk] at h
  split at h <;> simp_all

theorem flatMap_slots_inj {vs ws : List Value} {r : List Slot}
    (hk : vs.map Value.kind = ws.map Value.kind)
    (h : vs.flatMap Value.slots <+: ws.flatMap Value.slots ++ r) : vs = ws := by
  induction vs generalizing ws with
  | nil =>
    cases ws with
    | nil => rfl
    | cons w ws => simp at hk
  | cons v vs ih =>
    cases ws with
    | nil => simp at hk
    | cons w ws =>
      simp only [List.map_cons, List.cons.injEq] at hk
      obtain ⟨t, ht⟩ := h
      simp only [List.flatMap_cons, List.append_assoc] at ht
      obtain ⟨rfl, hrest⟩ := Value.slots_inj hk.1 ht
      rw [ih hk.2 ⟨t, hrest⟩]

variable {k : TypeKind} {locals : List Slot} {n : ℕ}

theorem readSlots_low {x : Value}
    (h : readSlots locals n k = some x) (hk : k.isWide) : locals[n + 1]? = some (.low x) := by
  unfold readSlots at h
  rw [if_pos hk] at h
  split at h
  · rename_i hlow
    split at h
    · rename_i heq
      cases h
      rw [hlow, heq]
    · cases h
  · cases h

theorem readSlots_whole {x : Value} (h : readSlots locals n k = some x) (hk : k.isWide = false) :
    locals[n]? = some (.whole x) := by
  unfold readSlots at h
  rw [if_neg (by simp [hk])] at h
  split at h
  · rename_i hwhole
    cases h
    exact hwhole
  · cases h

theorem readSlots_writeSlots {ls : List Slot}
    (h : writeSlots locals n v = some ls) : readSlots ls n v.kind = some v := by
  unfold writeSlots at h
  unfold readSlots
  split at h
  · rename_i hw
    split at h
    · rename_i hlt
      cases h
      rw [if_pos hw]
      have hn : n < locals.length := by omega
      simp [hn, hlt]
    · cases h
  · rename_i hw
    split at h
    · rename_i hlt
      cases h
      rw [if_neg hw]
      simp [hlt]
    · cases h

theorem readSlots_of_disjoint {ls : List Slot} {s : ℕ}
    (h : writeSlots locals n v = some ls) (hn : s ≠ n) (hv : v.kind.isWide → s ≠ n + 1)
    (hk : k.isWide → s + 1 ≠ n) : readSlots ls s k = readSlots locals s k := by
  have hsame : ∀ t : ℕ, t ≠ n → (v.kind.isWide → t ≠ n + 1) → ls[t]? = locals[t]? := by
    intro t ht htv
    unfold writeSlots at h
    split at h
    · rename_i hw
      split at h
      · cases h
        rw [List.getElem?_set_ne (Ne.symm (htv hw)), List.getElem?_set_ne (Ne.symm ht)]
      · cases h
    · split at h
      · cases h
        rw [List.getElem?_set_ne (Ne.symm ht)]
      · cases h
  unfold readSlots
  split
  · rename_i hw
    rw [hsame s hn hv, hsame (s + 1) (hk hw) fun _ => by omega]
  · rw [hsame s hn hv]

end TraceJvm
