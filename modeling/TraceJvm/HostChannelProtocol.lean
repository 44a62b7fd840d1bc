import TraceJvm.HostChannel
import Mathlib.Data.List.Nodup

/-! The protocol of the host channel: in every interleaving of the threads a call of `dispatchSync`
ends with the outcome of its own request, and a closed channel stays closed. -/
namespace TraceJvm

open Transition Function List Option HostCodec

variable {V C : Type}

def CallerPc.request : CallerPc V C → Option ℕ
  | .out => none
  | .reserved r | .notifying r | .resetting r _ | .loading r | .entering r | .blocked r
  | .completing r | .sizing r _ | .refusing r _ | .reading r _ _ | .finishing r _ _ => some r

/-- The message of request `q` has not been posted. -/
def CallerPc.Unsent (q : ℕ) : CallerPc V C → Prop
  | .reserved r | .notifying r | .resetting r _ => r = q
  | _ => False

/-- The thread waits for the answer to request `q`, or has found the channel closed. -/
def CallerPc.Awaits (q : ℕ) : CallerPc V C → Prop
  | .loading r | .entering r | .blocked r | .completing r => r = q
  | .sizing r completed => r = q ∧ completed = .closed
  | _ => False

/-- The thread has found call `r` completed. -/
def CallerPc.Loaded (r : ℕ) : CallerPc V C → Prop
  | .sizing q completed => q = r ∧ completed ≠ .closed
  | .refusing q _ | .reading q _ _ | .finishing q _ _ => q = r
  | _ => False

def WriterPc.Working : WriterPc V C → Prop
  | .out | .waking => False
  | _ => True

namespace ChannelVm

def Outstanding (s : ChannelVm V C) (q : ℕ) : Prop :=
  q ∈ s.posted ∨ (q ∈ s.received ∧ s.answers q = none) ∨ (s.writers q).Working

def Own (J : HostCodec V C) (capacity : ℕ) (s : ChannelVm V C) (r : ℕ) :
    DispatchResult V C → Prop
  | .closed | .closedDuring => s.word = .closed
  | .concurrent => True
  | .notifyThrew cause => s.causes r = some cause
  | x => ∃ answer, s.answers r = some answer ∧ J.outcome capacity answer = some x

structure Protocol (J : HostCodec V C) (capacity : ℕ) (s : ChannelVm V C) : Prop where
  own : ∀ r x, (r, x) ∈ s.results → s.Own J capacity r x
  once : (s.results.map Prod.fst).Nodup
  single : ∀ t t' r r', (s.callers t).request = some r → (s.callers t').request = some r' → t = t'
  admits : ∀ t, (∀ t', (s.callers t').request = none) → s.word ≠ .closed →
    (s.dispatchSync t).callers t = .reserved s.nextCall
  exact : ∀ answer state bytes, J.written capacity answer = some (state, bytes) →
    bytes.length < 2 ^ 31 → J.outcome capacity answer = some (.ofValue state (J.decode bytes))
  oversized : ∀ value bytes, J.encode value = .ok bytes → capacity < bytes.length →
    J.outcome capacity (.respond value) =
      some (.ofValue .failure (J.decode (asciiBytes (oversizedText capacity))))
  payload : s.payload.length = capacity
  fits : ∀ r state bytes, s.writers r = .setting state bytes → bytes.length ≤ s.payload.length
  completes : ∀ t r answer, (s.callers t).Awaits r → s.answers r = some answer →
    (J.written capacity answer).isSome → (s.writers r).Working ∨ s.word ≠ .pending
  awake : ∀ t r, s.callers t = .blocked r →
    s.word = .pending ∨ 0 < s.closing ∨ ∃ q, s.writers q = .waking
  absorbing : s.word = .closed → ∀ s', Reachable (channelStep J capacity) s s' →
    s'.word = .closed ∧ ∀ r x, (r, x) ∈ s'.results → (r, x) ∈ s.results ∨ x.Throws ∨
      ∃ t, (s.callers t).Loaded r

end ChannelVm

/-! ### Encoding -/

theorem oversizedText_length {n : ℕ} (h : n < 2 ^ 53) :
    (asciiBytes (oversizedText n)).length ≤ 256 := by
  have hrepr : n.repr.length ≤ 16 := (Nat.length_repr_le_iff (by decide)).mpr (by omega)
  have hfirst : ("\x7b\"value\":\x7b\"name\":\"RangeError\",\"message\":\"TraceJVM host response exceeded "
      : String).length ≤ 128 := by decide +kernel
  have hlast : (" bytes.\"\x7d\x7d" : String).length ≤ 32 := by decide +kernel
  unfold asciiBytes oversizedText
  rw [length_map, String.length_toList, String.length_append, String.length_append]
  omega

namespace HostCodec

variable {J : HostCodec V C} {capacity : ℕ} {answer : HostAnswer V C} {state : ChannelWord}
  {bytes : List UInt8}

theorem written_spec (h : J.written capacity answer = some (state, bytes)) :
    (state = .response ∨ state = .failure) ∧
      (bytes.length ≤ capacity ∨ bytes = asciiBytes (oversizedText capacity)) := by
  unfold written at h
  obtain ⟨⟨w, b⟩, hencoded, hcut⟩ := map_eq_some_iff.mp h
  have hw : w = .response ∨ w = .failure := by
    cases answer <;> dsimp only at hencoded <;> split at hencoded
    all_goals first
      | (cases hencoded; simp)
      | (split at hencoded <;> cases hencoded; simp)
  split at hcut
  · cases hcut
    exact ⟨.inr rfl, .inr rfl⟩
  · rename_i hfit
    cases hcut
    exact ⟨hw, .inl (Nat.le_of_not_lt hfit)⟩

theorem written_ne_closed (h : J.written capacity answer = some (state, bytes)) :
    state ≠ .closed := by
  rcases (written_spec h).1 with rfl | rfl <;> decide

theorem written_length {c : HostChannel}
    (h : J.written c.byteCapacity answer = some (state, bytes)) :
    bytes.length ≤ c.byteCapacity := by
  rcases (written_spec h).2 with hle | rfl
  · exact hle
  · exact Nat.le_trans (oversizedText_length c.safe) c.minimum

theorem toInt32_of_lt {n : ℕ} (h : n < 2 ^ 31) : toInt32 n = n := by
  unfold toInt32
  rw [Int.bmod_def]
  omega

theorem outcome_exact {c : HostChannel}
    (h : J.written c.byteCapacity answer = some (state, bytes)) (hshort : bytes.length < 2 ^ 31) :
    J.outcome c.byteCapacity answer = some (.ofValue state (J.decode bytes)) := by
  have hle := written_length h
  have hin : ¬ ((bytes.length : ℤ) < 0 ∨ (c.byteCapacity : ℤ) < bytes.length) := by omega
  simp only [outcome, h, map_some, toInt32_of_lt hshort, if_neg hin, Int.toNat_natCast, take_length]

theorem outcome_oversized {c : HostChannel} {value : V} (h : J.encode value = .ok bytes)
    (hlong : c.byteCapacity < bytes.length) :
    J.outcome c.byteCapacity (.respond value) =
      some (.ofValue .failure (J.decode (asciiBytes (oversizedText c.byteCapacity)))) := by
  have hwritten : J.written c.byteCapacity (.respond value) =
      some (.failure, asciiBytes (oversizedText c.byteCapacity)) := by
    simp [written, h, hlong]
  apply outcome_exact hwritten
  exact Nat.lt_of_le_of_lt (oversizedText_length c.safe) (by decide)

end HostCodec

/-! ### The invariant -/

namespace ChannelVm

variable (J : HostCodec V C) (capacity : ℕ)

def Delivered (s : ChannelVm V C) (r : ℕ) (w : ChannelWord) : Prop :=
  ∃ answer bytes, s.answers r = some answer ∧ J.written capacity answer = some (w, bytes) ∧
    s.length = toInt32 bytes.length ∧ s.payload.take bytes.length = bytes

def Phase (s : ChannelVm V C) : CallerPc V C → Prop
  | .out => True
  | .reserved _ | .notifying _ => s.word = .pending ∨ s.word = .closed
  | .resetting r cause => s.causes r = some cause ∧ (s.word = .pending ∨ s.word = .closed)
  | .loading r | .entering r | .blocked r =>
      s.word = .closed ∨ s.word = .pending ∨ s.Delivered J capacity r s.word
  | .completing r => s.word = .closed ∨ s.Delivered J capacity r s.word
  | .sizing r w => (w = .closed ∧ s.word = .closed) ∨
      (s.Delivered J capacity r w ∧ (s.word = w ∨ s.word = .closed))
  | .refusing r w => s.Delivered J capacity r w ∧ (s.word = w ∨ s.word = .closed) ∧
      (s.length < 0 ∨ (capacity : ℤ) < s.length)
  | .reading r w n => s.Delivered J capacity r w ∧ (s.word = w ∨ s.word = .closed) ∧
      s.length = n ∧ n ≤ capacity
  | .finishing r w v => (∃ answer bytes, s.answers r = some answer ∧
      J.written capacity answer = some (w, bytes) ∧
        J.outcome capacity answer = some (.ofValue w v)) ∧ (s.word = w ∨ s.word = .closed)

/-- What holds where the host is in the `write` for a request. -/
def WriterOk (s : ChannelVm V C) (q : ℕ) : WriterPc V C → Prop
  | .out => True
  | .started answer => s.answers q = some answer
  | .encoded w bytes | .filling w bytes _ | .setting w bytes =>
      ∃ answer, s.answers q = some answer ∧ J.written capacity answer = some (w, bytes)
  | .storing w bytes => (∃ answer, s.answers q = some answer ∧
      J.written capacity answer = some (w, bytes)) ∧
        (s.word = .pending → s.payload.take bytes.length = bytes)
  | .swapping w => s.answers q ≠ none ∧ (s.word = .pending → s.Delivered J capacity q w)
  | .waking => s.answers q ≠ none

end ChannelVm

structure ChannelInv (J : HostCodec V C) (capacity : ℕ) (s : ChannelVm V C) : Prop where
  payload : s.payload.length = capacity
  single : ∀ t t' r r', (s.callers t).request = some r → (s.callers t').request = some r' → t = t'
  rest : (∀ t, (s.callers t).request = none) → s.word = .idle ∨ s.word = .closed
  phase : ∀ t, s.Phase J capacity (s.callers t)
  outstanding : ∀ q, s.Outstanding q → (s.word = .pending ∨ s.word = .closed) ∧
    ∀ t r, (s.callers t).request = some r → (s.callers t).Awaits q
  writers : ∀ q, s.WriterOk J capacity q (s.writers q)
  awake : ∀ t r, s.callers t = .blocked r →
    s.word = .pending ∨ 0 < s.closing ∨ ∃ q, s.writers q = .waking
  sent : ∀ q, q ∈ s.posted ∨ q ∈ s.received ∨ s.answers q ≠ none →
    q < s.nextCall ∧ ∀ t, ¬ (s.callers t).Unsent q
  completes : ∀ t r answer, (s.callers t).Awaits r → s.answers r = some answer →
    (J.written capacity answer).isSome → (s.writers r).Working ∨ s.word ≠ .pending
  ids : ∀ t r, (s.callers t).request = some r → r < s.nextCall ∧ ∀ x, (r, x) ∉ s.results
  resultIds : ∀ r x, (r, x) ∈ s.results → r < s.nextCall
  once : (s.results.map Prod.fst).Nodup
  own : ∀ r x, (r, x) ∈ s.results → s.Own J capacity r x
  flight : ∀ q ∈ s.posted, q ∉ s.received ∧ s.answers q = none

namespace ChannelInv

variable {J : HostCodec V C} {c : HostChannel} {s : ChannelVm V C} {t r q : ℕ}
  {pc : CallerPc V C}

theorem init : ChannelInv J c.byteCapacity (.start V C c.byteCapacity) where
  payload := length_replicate
  single := nofun
  rest _ := .inl rfl
  phase _ := trivial
  outstanding := by
    rintro q (h | h | h)
    · cases h
    · cases h.1
    · cases h
  writers _ := trivial
  awake := nofun
  sent := by
    rintro q (h | h | h)
    · cases h
    · cases h
    · exact absurd rfl h
  completes := nofun
  ids := nofun
  resultIds := nofun
  once := nodup_nil
  own := nofun
  flight := nofun

variable {s' : ChannelVm V C}

/-- A thread that waits for an answer which can still arrive finds nothing delivered. -/
theorem Phase.waiting (h : s.Phase J c.byteCapacity pc) (haw : pc.Awaits q)
    (hw : s.word = .pending ∨ s.word = .closed) (hword : s'.word = s.word) :
    s'.Phase J c.byteCapacity pc := by
  have hno : ∀ {r}, ¬ s.Delivered J c.byteCapacity r s.word := by
    rintro r ⟨answer, bytes, -, hwritten, -⟩
    rcases (written_spec hwritten).1 with h' | h' <;> rcases hw with h | h <;>
      rw [h] at h' <;> cases h'
  cases pc with
  | loading r | entering r | blocked r =>
    rcases hw with hw | hw
    · exact .inr (.inl (hword.trans hw))
    · exact .inl (hword.trans hw)
  | completing r =>
    rcases h with h | h
    · exact .inl (hword.trans h)
    · exact absurd h hno
  | sizing r w =>
    obtain ⟨-, rfl⟩ := haw
    rcases h with h | ⟨h, -⟩
    · exact .inl ⟨rfl, hword.trans h.2⟩
    · obtain ⟨answer, bytes, -, hwritten, -⟩ := h
      rcases (written_spec hwritten).1 with h' | h' <;> cases h'
  | _ => cases haw

theorem WriterOk.idle {pc : WriterPc V C} (h : s.WriterOk J c.byteCapacity q pc)
    (hidle : ¬ pc.Working) (hanswers : s'.answers = s.answers) :
    s'.WriterOk J c.byteCapacity q pc := by
  cases pc with
  | out => trivial
  | waking =>
    show s'.answers q ≠ none
    rw [hanswers]
    exact h
  | _ => exact absurd trivial hidle

theorem Phase.word_ne_idle (h : s.Phase J c.byteCapacity pc) (hr : pc.request = some r) :
    s.word ≠ .idle := by
  have hof : ∀ {w : ChannelWord} {answer bytes},
      J.written c.byteCapacity answer = some (w, bytes) → (s.word = w ∨ s.word = .closed) →
        s.word ≠ .idle := by
    intro w answer bytes hwritten hw heq
    rw [heq] at hw
    rcases hw with rfl | hw
    · rcases (written_spec hwritten).1 with h | h <;> cases h
    · cases hw
  have hdelivered : ∀ {w : ChannelWord} {q}, s.Delivered J c.byteCapacity q w →
      (s.word = w ∨ s.word = .closed) → s.word ≠ .idle := by
    rintro w q ⟨answer, bytes, -, hwritten, -⟩ hw
    exact hof hwritten hw
  have hopen : s.word = .pending ∨ s.word = .closed → s.word ≠ .idle := by
    rintro (h | h) <;> rw [h] <;> decide
  cases pc with
  | out => cases hr
  | reserved q | notifying q => exact hopen h
  | resetting q cause => exact hopen h.2
  | loading q | entering q | blocked q =>
    rcases h with h | h | h
    · exact hopen (.inr h)
    · exact hopen (.inl h)
    · exact hdelivered h (.inl rfl)
  | completing q =>
    rcases h with h | h
    · exact hopen (.inr h)
    · exact hdelivered h (.inl rfl)
  | sizing q w =>
    rcases h with h | h
    · exact hopen (.inr h.2)
    · exact hdelivered h.1 h.2
  | refusing q w | reading q w n => exact hdelivered h.1 h.2.1
  | finishing q w v =>
    obtain ⟨⟨answer, bytes, -, hwritten, -⟩, hw⟩ := h
    exact hof hwritten hw

theorem awaits_request (h : pc.Awaits q) : pc.request = some q := by
  cases pc with
  | loading r | entering r | blocked r | completing r => exact congrArg some h
  | sizing r w => exact congrArg some h.1
  | _ => cases h

theorem unsent_request (h : pc.Unsent q) : pc.request = some q := by
  cases pc with
  | reserved r | notifying r | resetting r _ => exact congrArg some h
  | _ => cases h

/-- A thread goes on within its call. -/
theorem move (h : ChannelInv J c.byteCapacity s) {pc₀ : CallerPc V C} (hpc : s.callers t = pc₀)
    (hr₀ : pc₀.request = some r) (hr : pc.request = some r) (hphase : s.Phase J c.byteCapacity pc)
    (haw : ∀ q, s.Outstanding q → pc₀.Awaits q → pc.Awaits q)
    (hawait : ∀ q, pc.Awaits q → pc₀.Awaits q ∨ s.answers q = none)
    (hunsent : ∀ q, pc.Unsent q → pc₀.Unsent q)
    (hblocked : ∀ q, pc = .blocked q → s.word = .pending) :
    ChannelInv J c.byteCapacity (s.move t pc) := by
  subst hpc
  have ht := hr₀
  have hother : ∀ {t'}, t' ≠ t → (s.callers t').request = none := by
    intro t' hne
    cases hreq : (s.callers t').request with
    | none => rfl
    | some r' => exact absurd (h.single t' t r' r hreq ht) hne
  have hcaller : ∀ t', (s.move t pc).callers t' = if t' = t then pc else s.callers t' := by
    intro t'
    simp [ChannelVm.move, update_apply]
  constructor
  · exact h.payload
  · intro t₁ t₂ r₁ r₂ h₁ h₂
    rw [hcaller] at h₁ h₂
    split at h₁ <;> split at h₂
    · rename_i e₁ e₂
      rw [e₁, e₂]
    · rename_i e₂
      rw [hother e₂] at h₂
      cases h₂
    · rename_i e₁ _
      rw [hother e₁] at h₁
      cases h₁
    · rename_i e₁ _
      rw [hother e₁] at h₁
      cases h₁
  · intro hnone
    have := hnone t
    rw [hcaller, if_pos rfl, hr] at this
    cases this
  · intro t'
    rw [hcaller]
    split
    · exact hphase
    · exact h.phase t'
  · intro q hq
    obtain ⟨hw, hall⟩ := h.outstanding q hq
    refine ⟨hw, fun t' r' hreq => ?_⟩
    rw [hcaller] at hreq ⊢
    split at hreq
    · rename_i e
      rw [if_pos e]
      exact haw q hq (hall t r ht)
    · rename_i e
      rw [hother e] at hreq
      cases hreq
  · exact h.writers
  · intro t' q hq
    rw [hcaller] at hq
    split at hq
    · exact .inl (hblocked q hq)
    · exact h.awake t' q hq
  · intro q hq
    obtain ⟨hlt, hnot⟩ := h.sent q hq
    refine ⟨hlt, fun t' hu => ?_⟩
    rw [hcaller] at hu
    split at hu
    · exact hnot t (hunsent q hu)
    · exact hnot t' hu
  · intro t' q answer hq hanswer
    rw [hcaller] at hq
    split at hq
    · rcases hawait q hq with haw' | hnone
      · exact h.completes t q answer haw' hanswer
      · cases hnone.symm.trans hanswer
    · exact h.completes t' q answer hq hanswer
  · intro t' r' hreq
    rw [hcaller] at hreq
    split at hreq
    · rw [hr] at hreq
      exact h.ids t r' (ht.trans hreq)
    · exact h.ids t' r' hreq
  · exact h.resultIds
  · exact h.once
  · exact h.own
  · exact h.flight

variable {x : DispatchResult V C}

/-- A call ends. -/
theorem finish (h : ChannelInv J c.byteCapacity s) (hpc : s.callers t = pc)
    (hr : pc.request = some r) {word : ChannelWord}
    (hword : word = .idle ∨ word = .closed) (hclosed : s.word = .closed → word = .closed)
    (hout : ∀ q, s.Outstanding q → word = .closed)
    (hown : (s.finish t r word x).Own J c.byteCapacity r x) :
    ChannelInv J c.byteCapacity (s.finish t r word x) := by
  have ht : (s.callers t).request = some r := by rw [hpc, hr]
  have hnone : ∀ t', ((s.finish t r word x).callers t').request = none := by
    intro t'
    simp only [ChannelVm.finish, update_apply]
    split
    · rfl
    · rename_i hne
      cases hreq : (s.callers t').request with
      | none => rfl
      | some r' => exact absurd (h.single t' t r' r hreq ht) hne
  have hno : ∀ {P : Prop} {t' r'}, ((s.finish t r word x).callers t').request = some r' → P := by
    intro P t' r' hreq
    rw [hnone] at hreq
    cases hreq
  obtain ⟨hlt, hnew⟩ := h.ids t r ht
  constructor
  · exact h.payload
  · exact fun t₁ t₂ r₁ r₂ h₁ _ => hno h₁
  · exact fun _ => hword
  · intro t'
    have := hnone t'
    revert this
    cases (s.finish t r word x).callers t' with
    | out => exact fun _ => trivial
    | _ => nofun
  · exact fun q hq => ⟨.inr (hout q hq), fun t' r' hreq => hno hreq⟩
  · intro q
    have := h.writers q
    revert this
    show ChannelVm.WriterOk J _ s q (s.writers q) → ChannelVm.WriterOk J _ _ q (s.writers q)
    have hpending : (s.finish t r word x).word ≠ .pending := by
      rcases hword with hw | hw <;> simp [ChannelVm.finish, hw]
    cases s.writers q with
    | storing w bytes | swapping w => exact fun hs => ⟨hs.1, fun hp => absurd hp hpending⟩
    | _ => exact id
  · intro t' q hq
    have hreq : ((s.finish t r word x).callers t').request = some q := by rw [hq]; rfl
    exact hno hreq
  · intro q hq
    exact ⟨(h.sent q hq).1, fun t' hu => hno (unsent_request hu)⟩
  · exact fun t' q answer hq => hno (awaits_request hq)
  · exact fun t' r' hreq => hno hreq
  · intro r' x' hmem
    rcases mem_cons.mp hmem with heq | hmem
    · cases heq
      exact hlt
    · exact h.resultIds r' x' hmem
  · rw [ChannelVm.finish, map_cons, nodup_cons]
    refine ⟨fun hmem => ?_, h.once⟩
    obtain ⟨⟨r', x'⟩, hres, heq⟩ := mem_map.mp hmem
    rw [show r' = r from heq] at hres
    exact hnew x' hres
  · intro r' x' hmem
    rcases mem_cons.mp hmem with heq | hmem
    · cases heq
      exact hown
    · have := h.own r' x' hmem
      cases x' with
      | closed | closedDuring => exact hclosed this
      | _ => exact this
  · exact h.flight

/-- A call that is refused at once. -/
theorem refuse (h : ChannelInv J c.byteCapacity s) (ht : s.callers t = .out)
    (hx : x = .concurrent ∨ x = .closed ∧ s.word = .closed) : ChannelInv J c.byteCapacity
      (({ s with nextCall := s.nextCall + 1 } : ChannelVm V C).finish t s.nextCall s.word x) := by
  have hsame : update s.callers t .out = s.callers := by
    rw [← ht, update_eq_self]
  unfold ChannelVm.finish
  dsimp only
  rw [hsame]
  constructor
  · exact h.payload
  · exact h.single
  · exact h.rest
  · exact h.phase
  · exact h.outstanding
  · exact h.writers
  · exact h.awake
  · exact fun q hq => ⟨Nat.lt_succ_of_lt (h.sent q hq).1, (h.sent q hq).2⟩
  · exact h.completes
  · intro t' r' hreq
    obtain ⟨hlt, hnew⟩ := h.ids t' r' hreq
    refine ⟨Nat.lt_succ_of_lt hlt, fun x' hmem => ?_⟩
    rcases mem_cons.mp hmem with heq | hmem
    · cases heq
      exact Nat.lt_irrefl _ hlt
    · exact hnew x' hmem
  · intro r' x' hmem
    rcases mem_cons.mp hmem with heq | hmem
    · cases heq
      exact Nat.lt_succ_self _
    · exact Nat.lt_succ_of_lt (h.resultIds r' x' hmem)
  · rw [map_cons, nodup_cons]
    refine ⟨fun hmem => ?_, h.once⟩
    obtain ⟨⟨r', x'⟩, hmem, heq⟩ := mem_map.mp hmem
    have hlt := h.resultIds r' x' hmem
    rw [show r' = s.nextCall from heq] at hlt
    exact Nat.lt_irrefl _ hlt
  · intro r' x' hmem
    rcases mem_cons.mp hmem with heq | hmem
    · cases heq
      rcases hx with rfl | ⟨rfl, hclosed⟩
      · trivial
      · exact hclosed
    · exact h.own r' x' hmem
  · exact h.flight

/-- A call that finds the channel idle. -/
theorem entersTurn (h : ChannelInv J c.byteCapacity s) (hw : s.word = .idle) :
    ChannelInv J c.byteCapacity
      { ({ s with nextCall := s.nextCall + 1 } : ChannelVm V C).move t (.reserved s.nextCall) with
        word := .pending } := by
  have hnone : ∀ t', (s.callers t').request = none := by
    intro t'
    cases hreq : (s.callers t').request with
    | none => rfl
    | some r => exact absurd hw (Phase.word_ne_idle (h.phase t') hreq)
  have hquiet : ∀ q, ¬ s.Outstanding q := by
    intro q hq
    rcases (h.outstanding q hq).1 with h' | h' <;> rw [hw] at h' <;> cases h'
  have hcaller : ∀ t', update s.callers t (.reserved s.nextCall) t' =
      if t' = t then .reserved s.nextCall else s.callers t' := fun t' => update_apply ..
  have hreq : ∀ {t' r'}, (update s.callers t (.reserved s.nextCall) t').request = some r' →
      t' = t ∧ r' = s.nextCall := by
    intro t' r' hreq
    rw [hcaller] at hreq
    split at hreq
    · exact ⟨‹_›, (some.inj hreq).symm⟩
    · rw [hnone] at hreq
      cases hreq
  have hwait : ∀ {t' q}, ¬ (update s.callers t (.reserved s.nextCall) t').Awaits q := by
    intro t' q haw
    have hthis := awaits_request haw
    obtain ⟨rfl, -⟩ := hreq hthis
    rw [hcaller, if_pos rfl] at haw
    exact haw
  constructor
  · exact h.payload
  · intro t₁ t₂ r₁ r₂ h₁ h₂
    rw [(hreq h₁).1, (hreq h₂).1]
  · intro hall
    have := hall t
    dsimp only [ChannelVm.move] at this
    rw [hcaller, if_pos rfl] at this
    cases this
  · intro t'
    dsimp only [ChannelVm.move]
    rw [hcaller]
    split
    · exact .inl rfl
    · have := hnone t'
      revert this
      cases s.callers t' with
      | out => exact fun _ => trivial
      | _ => nofun
  · exact fun q hq => absurd hq (hquiet q)
  · intro q
    exact WriterOk.idle (h.writers q) (fun hworking => hquiet q (.inr (.inr hworking))) rfl
  · exact fun _ _ _ => .inl rfl
  · intro q hq
    obtain ⟨hlt, -⟩ := h.sent q hq
    refine ⟨Nat.lt_succ_of_lt hlt, fun t' hu => ?_⟩
    obtain ⟨-, rfl⟩ := hreq (unsent_request hu)
    exact Nat.lt_irrefl _ hlt
  · exact fun t' q answer haw => absurd haw hwait
  · intro t' r' hr'
    obtain ⟨-, rfl⟩ := hreq hr'
    exact ⟨Nat.lt_succ_self _, fun x hmem => Nat.lt_irrefl _ (h.resultIds _ x hmem)⟩
  · exact fun r' x hmem => Nat.lt_succ_of_lt (h.resultIds r' x hmem)
  · exact h.once
  · intro r' x hmem
    have := h.own r' x hmem
    cases x with
    | closed | closedDuring =>
      rw [ChannelVm.Own, hw] at this
      cases this
    | _ => exact this
  · exact h.flight

theorem dispatchSync (h : ChannelInv J c.byteCapacity s) (ht : s.callers t = .out) :
    ChannelInv J c.byteCapacity (s.dispatchSync t) := by
  unfold ChannelVm.dispatchSync
  dsimp only
  split
  · exact h.entersTurn ‹_›
  · exact h.refuse ht (.inr ⟨rfl, ‹_›⟩)
  · exact h.refuse ht (.inl rfl)

theorem quiet (h : ChannelInv J c.byteCapacity s) (hpc : s.callers t = pc)
    (hr : pc.request = some r) (hno : ∀ q, ¬ pc.Awaits q) (q : ℕ) : ¬ s.Outstanding q := by
  subst hpc
  exact fun hq => hno q ((h.outstanding q hq).2 t r hr)

theorem quiet_of_delivered (h : ChannelInv J c.byteCapacity s)
    (hd : s.Delivered J c.byteCapacity r s.word) (q : ℕ) : ¬ s.Outstanding q := by
  intro hq
  obtain ⟨answer, bytes, -, hwritten, -⟩ := hd
  rcases (written_spec hwritten).1 with hw | hw <;>
    rcases (h.outstanding q hq).1 with hw' | hw' <;> rw [hw'] at hw <;> cases hw

variable {w : ChannelWord}

theorem exchange_word (hw : s.word = w ∨ s.word = .closed) (hne : w ≠ .closed) :
    (s.compareExchange w .idle = .idle ∨ s.compareExchange w .idle = .closed) ∧
      (s.word = .closed → s.compareExchange w .idle = .closed) := by
  unfold ChannelVm.compareExchange
  rcases hw with hw | hw
  · rw [if_pos hw]
    exact ⟨.inl rfl, fun hclosed => absurd (hw.symm.trans hclosed) hne⟩
  · have hne' : s.word ≠ w := fun heq => hne (heq.symm.trans hw)
    rw [if_neg hne', hw]
    exact ⟨.inr rfl, fun _ => rfl⟩

theorem memory (h : ChannelInv J c.byteCapacity s) {length : ℤ} {payload : List UInt8}
    (hlength : payload.length = c.byteCapacity)
    (hphase : ∀ t, ({ s with length := length, payload := payload } : ChannelVm V C).Phase J
      c.byteCapacity (s.callers t))
    (hwriters : ∀ q, ({ s with length := length, payload := payload } : ChannelVm V C).WriterOk J
      c.byteCapacity q (s.writers q)) :
    ChannelInv J c.byteCapacity { s with length := length, payload := payload } :=
  { h with payload := hlength, phase := hphase, writers := hwriters }

theorem reserved (h : ChannelInv J c.byteCapacity s) (ht : s.callers t = .reserved r) :
    ChannelInv J c.byteCapacity { s.move t (.notifying r) with length := 0 } := by
  have hreq : (s.callers t).request = some r := by rw [ht]; rfl
  have hquiet : ∀ q, ¬ s.Outstanding q := h.quiet ht rfl nofun
  have hzero : ChannelInv J c.byteCapacity ({ s with length := 0, payload := s.payload }) := by
    apply h.memory h.payload
    · intro t'
      by_cases heq : t' = t
      · have := h.phase t
        rw [heq]
        rw [ht] at this ⊢
        exact this
      · have hout : (s.callers t').request = none := by
          cases hreq' : (s.callers t').request with
          | none => rfl
          | some r' => exact absurd (h.single t' t r' r hreq' hreq) heq
        revert hout
        cases s.callers t' with
        | out => exact fun _ => trivial
        | _ => nofun
    · intro q
      exact WriterOk.idle (h.writers q) (fun hworking => hquiet q (.inr (.inr hworking))) rfl
  have hphase := h.phase t
  rw [ht] at hphase
  exact hzero.move ht rfl (show (CallerPc.notifying r).request = some r from rfl) hphase
    (fun q hq => absurd hq (hquiet q)) nofun (fun q hu => hu) nofun

theorem notified (h : ChannelInv J c.byteCapacity s) (ht : s.callers t = .notifying r) :
    ChannelInv J c.byteCapacity { s.move t (.loading r) with posted := r :: s.posted } := by
  have hreq : (s.callers t).request = some r := by rw [ht]; rfl
  have hphase := h.phase t
  rw [ht] at hphase
  have hquiet : ∀ q, ¬ s.Outstanding q := h.quiet ht rfl nofun
  have hfresh : s.answers r = none := by
    by_contra hne
    apply (h.sent r (.inr (.inr hne))).2 t
    rw [ht]
    rfl
  have hm : ChannelInv J c.byteCapacity (s.move t (.loading r)) := by
    refine h.move ht rfl rfl ?_ (fun q hq => absurd hq (hquiet q)) ?_ nofun nofun
    · rcases hphase with hw | hw
      · exact .inr (.inl hw)
      · exact .inl hw
    · rintro q rfl
      exact .inr hfresh
  have hself : (s.move t (.loading r)).callers t = .loading r := update_self ..
  refine { hm with outstanding := ?_, sent := ?_, flight := ?_ }
  · intro q hq
    have hqr : q = r := by
      rcases hq with hq | hq
      · exact (mem_cons.mp hq).resolve_right fun hq => hquiet q (.inl hq)
      · exact absurd (.inr hq) (hquiet q)
    subst hqr
    refine ⟨hphase, fun t' r' hreq' => ?_⟩
    obtain rfl := hm.single t' t r' q hreq' (by rw [hself]; rfl)
    show CallerPc.Awaits q ((s.move t' (.loading q)).callers t')
    rw [hself]
    rfl
  · intro q hq
    have hold : q = r ∨ (q ∈ s.posted ∨ q ∈ s.received ∨ s.answers q ≠ none) := by
      rcases hq with hq | hq
      · exact (mem_cons.mp hq).imp_right .inl
      · exact .inr (.inr hq)
    rcases hold with rfl | hold
    · refine ⟨(h.ids t q hreq).1, fun t' hu => ?_⟩
      obtain rfl := hm.single t' t q q (unsent_request hu) (by rw [hself]; rfl)
      have hu' : CallerPc.Unsent q ((s.move t' (.loading q)).callers t') := hu
      rw [hself] at hu'
      exact hu'
    · exact hm.sent q hold
  · intro q hq
    rcases mem_cons.mp hq with rfl | hq
    · refine ⟨fun hreceived => (h.sent q (.inr (.inl hreceived))).2 t ?_, hfresh⟩
      rw [ht]
      rfl
    · exact h.flight q hq

theorem notifyThrows (h : ChannelInv J c.byteCapacity s) (ht : s.callers t = .notifying r)
    (cause : C) : ChannelInv J c.byteCapacity { s.move t (.resetting r cause) with
      causes := update s.causes r (some cause) } := by
  have hreq : (s.callers t).request = some r := by rw [ht]; rfl
  have hphase := h.phase t
  rw [ht] at hphase
  have hnew := (h.ids t r hreq).2
  have hcause : ChannelInv J c.byteCapacity
      { s with causes := update s.causes r (some cause) } := by
    refine { h with phase := ?_, own := ?_ }
    · intro t'
      have hold := h.phase t'
      show ChannelVm.Phase J _ _ (s.callers t')
      cases hpc : s.callers t' with
      | resetting q cause' =>
        have hq : t' = t := h.single t' t q r (by rw [hpc]; rfl) hreq
        rw [hq, ht] at hpc
        cases hpc
      | _ =>
        rw [hpc] at hold
        exact hold
    · intro r' x hmem
      have hown := h.own r' x hmem
      have hne : r' ≠ r := by
        rintro rfl
        exact hnew x hmem
      cases x with
      | notifyThrew cause' => exact (update_of_ne hne _ _).trans hown
      | _ => exact hown
  exact hcause.move ht rfl (show (CallerPc.resetting r cause).request = some r from rfl)
    ⟨update_self .., hphase⟩ nofun nofun (fun q hu => hu) nofun

theorem own_ofValue {v : Except C V} {answer : HostAnswer V C} (hanswer : s.answers r = some answer)
    (h : J.outcome c.byteCapacity answer = some (.ofValue w v)) :
    s.Own J c.byteCapacity r (.ofValue w v) := by
  cases v with
  | error cause => exact ⟨answer, hanswer, h⟩
  | ok value =>
    revert h
    unfold DispatchResult.ofValue
    dsimp only
    split
    · exact fun h => ⟨answer, hanswer, h⟩
    · split
      · exact fun h => ⟨answer, hanswer, h⟩
      · exact fun h => ⟨answer, hanswer, h⟩

/-- Every step of a thread in `dispatchSync`. -/
theorem callerStep (h : ChannelInv J c.byteCapacity s)
    (hstep : s.callerStep J c.byteCapacity t = some s') : ChannelInv J c.byteCapacity s' := by
  have hphase := h.phase t
  unfold ChannelVm.callerStep at hstep
  generalize hpc : s.callers t = pc at hstep hphase
  cases pc with
  | out | notifying r | blocked r =>
    cases hstep
  | reserved r =>
    cases hstep
    exact h.reserved hpc
  | resetting r cause =>
    cases hstep
    obtain ⟨hword, hclosed⟩ := exchange_word hphase.2 (by decide)
    exact h.finish hpc rfl hword hclosed (fun q hq => absurd hq (h.quiet hpc rfl nofun q)) hphase.1
  | loading r =>
    cases hstep
    split
    · exact h.move hpc rfl rfl hphase (fun _ _ haw => haw) (fun _ haw => .inl haw) nofun nofun
    · rename_i hw
      refine h.move hpc rfl rfl ?_ (fun _ _ haw => haw) (fun _ haw => .inl haw) nofun nofun
      rcases hphase with hp | hp | hp
      · exact .inl hp
      · exact absurd hp hw
      · exact .inr hp
  | entering r =>
    cases hstep
    split
    · rename_i hw
      exact h.move hpc rfl rfl hphase (fun _ _ haw => haw) (fun _ haw => .inl haw) nofun
        fun _ _ => hw
    · exact h.move hpc rfl rfl hphase (fun _ _ haw => haw) (fun _ haw => .inl haw) nofun nofun
  | completing r =>
    cases hstep
    refine h.move hpc rfl rfl ?_ ?_ (fun _ haw => .inl haw.1) nofun nofun
    · rcases hphase with hp | hp
      · exact .inl ⟨hp, hp⟩
      · exact .inr ⟨hp, .inl rfl⟩
    · intro q hq haw
      rcases hphase with hp | hp
      · exact ⟨haw, hp⟩
      · exact absurd hq (h.quiet_of_delivered hp q)
  | sizing r w =>
    dsimp only at hstep
    split at hstep
    · rename_i hw
      cases hstep
      have hclosed : s.word = .closed := by
        rcases hphase with hp | hp
        · exact hp.2
        · exact hp.2.elim (fun heq => heq.trans hw) id
      exact h.finish hpc rfl (.inr hclosed) id (fun _ _ => hclosed) hclosed
    · rename_i hw
      obtain ⟨hd, hword⟩ : s.Delivered J c.byteCapacity r w ∧ (s.word = w ∨ s.word = .closed) := by
        rcases hphase with hp | hp
        · exact absurd hp.1 hw
        · exact hp
      split at hstep
      · rename_i hlength
        cases hstep
        exact h.move hpc rfl rfl ⟨hd, hword, hlength⟩ (fun _ _ haw => absurd haw.2 hw) nofun nofun
          nofun
      · rename_i hlength
        cases hstep
        have hnat : s.length = s.length.toNat ∧ s.length.toNat ≤ c.byteCapacity := by omega
        exact h.move hpc rfl rfl ⟨hd, hword, hnat⟩ (fun _ _ haw => absurd haw.2 hw) nofun nofun
          nofun
  | refusing r w =>
    cases hstep
    obtain ⟨⟨answer, bytes, hanswer, hwritten, hlen, htake⟩, hw, hlength⟩ := hphase
    obtain ⟨hword, hclosed⟩ := exchange_word hw (written_ne_closed hwritten)
    refine h.finish hpc rfl hword hclosed (fun q hq => absurd hq (h.quiet hpc rfl nofun q)) ?_
    refine ⟨answer, hanswer, ?_⟩
    rw [hlen] at hlength
    simp only [HostCodec.outcome, hwritten, map_some, if_pos hlength]
  | reading r w n =>
    cases hstep
    obtain ⟨⟨answer, bytes, hanswer, hwritten, hlen, htake⟩, hw, hlength, hn⟩ := hphase
    refine h.move hpc rfl rfl ⟨⟨answer, bytes, hanswer, hwritten, ?_⟩, hw⟩ nofun nofun nofun nofun
    have hlen' : toInt32 bytes.length = n := hlen.symm.trans hlength
    have hin : ¬ ((n : ℤ) < 0 ∨ (c.byteCapacity : ℤ) < n) := by omega
    have hle : n ≤ bytes.length := by
      unfold toInt32 at hlen'
      rw [Int.bmod_def] at hlen'
      omega
    have hbytes : s.payload.take n = bytes.take n := by
      rw [← htake, take_take, Nat.min_eq_left hle]
    simp only [HostCodec.outcome, hwritten, map_some, hlen', if_neg hin, Int.toNat_natCast, hbytes]
  | finishing r w v =>
    cases hstep
    obtain ⟨⟨answer, bytes, hanswer, hwritten, houtcome⟩, hw⟩ := hphase
    obtain ⟨hword, hclosed⟩ := exchange_word hw (written_ne_closed hwritten)
    refine h.finish hpc rfl hword hclosed (fun q hq => absurd hq (h.quiet hpc rfl nofun q)) ?_
    exact own_ofValue hanswer houtcome

/-! ### The host -/

/-- The host is at another place of the `write` for a request. -/
theorem moveWriter (h : ChannelInv J c.byteCapacity s) {pc₀ pc : WriterPc V C}
    (hpc : s.writers q = pc₀) (hworking : pc.Working → pc₀.Working)
    (hok : s.WriterOk J c.byteCapacity q pc) (hwaking : pc₀ ≠ .waking)
    (hcompletes : pc₀.Working → pc.Working ∨ s.word ≠ .pending ∨
      ∀ answer, s.answers q = some answer → J.written c.byteCapacity answer = none) :
    ChannelInv J c.byteCapacity (s.moveWriter q pc) := by
  subst hpc
  have hwriter : ∀ q', (s.moveWriter q pc).writers q' = if q' = q then pc else s.writers q' :=
    fun q' => update_apply ..
  refine { h with outstanding := ?_, writers := ?_, awake := ?_, completes := ?_ }
  · intro q' hq'
    apply h.outstanding
    rcases hq' with hq' | hq' | hq'
    · exact .inl hq'
    · exact .inr (.inl hq')
    · rw [hwriter] at hq'
      split at hq'
      · rename_i heq
        rw [heq]
        exact .inr (.inr (hworking hq'))
      · exact .inr (.inr hq')
  · intro q'
    rw [hwriter]
    split
    · rename_i heq
      rw [heq]
      exact hok
    · exact h.writers q'
  · intro t' r' hb
    rcases h.awake t' r' hb with hw | hw | ⟨q', hq'⟩
    · exact .inl hw
    · exact .inr (.inl hw)
    · refine .inr (.inr ⟨q', ?_⟩)
      rw [hwriter]
      split
      · rename_i heq
        rw [heq] at hq'
        exact absurd hq' hwaking
      · exact hq'
  · intro t' r' answer haw hanswer hsome
    rw [hwriter]
    have hold := h.completes t' r' answer haw hanswer hsome
    split
    · rename_i heq
      subst heq
      rcases hold with hold | hold
      · rcases hcompletes hold with hnew | hnew | hnone
        · exact .inl hnew
        · exact .inr hnew
        · rw [hnone answer hanswer] at hsome
          cases hsome
      · exact .inr hold
    · exact hold

/-- While a request is answered the memory belongs to the host. -/
theorem hostMemory (h : ChannelInv J c.byteCapacity s) (hq : (s.writers q).Working) (length : ℤ)
    (payload : List UInt8) (hlength : payload.length = c.byteCapacity)
    (hok : ({ s with length := length, payload := payload } : ChannelVm V C).WriterOk J
      c.byteCapacity q (s.writers q)) :
    ChannelInv J c.byteCapacity { s with length := length, payload := payload } := by
  obtain ⟨hw, hall⟩ := h.outstanding q (.inr (.inr hq))
  apply h.memory hlength
  · intro t'
    cases hreq : (s.callers t').request with
    | none =>
      revert hreq
      cases s.callers t' with
      | out => exact fun _ => trivial
      | _ => nofun
    | some r' => exact Phase.waiting (h.phase t') (hall t' r' hreq) hw rfl
  · intro q'
    by_cases heq : q' = q
    · rw [heq]
      exact hok
    · have hother : (s.writers q').Working → s.word ≠ .pending := by
        intro hworking hpending
        have hidle : ∃ t', (s.callers t').request ≠ none := by
          by_contra hno
          push Not at hno
          rcases h.rest hno with h' | h' <;> rw [hpending] at h' <;> cases h'
        obtain ⟨t', hne⟩ := hidle
        obtain ⟨r', hreq⟩ := ne_none_iff_exists'.mp hne
        have h₁ := awaits_request (hall t' r' hreq)
        have h₂ := awaits_request ((h.outstanding q' (.inr (.inr hworking))).2 t' r' hreq)
        exact heq (some.inj (h₂.symm.trans h₁))
      have hold := h.writers q'
      revert hold hother
      cases s.writers q' with
      | storing w bytes
      | swapping w => exact fun hother hold => ⟨hold.1, fun hp => absurd hp (hother trivial)⟩
      | _ => exact fun _ hold => hold

/-- The blocked threads are woken by a host that has nothing else left to do. -/
theorem wake (h : ChannelInv J c.byteCapacity s) (closing : ℕ) (writers : ℕ → WriterPc V C)
    (hwriters : ∀ q, writers q = s.writers q ∨ s.writers q = .waking ∧ writers q = .out) :
    ChannelInv J c.byteCapacity { s.wake with closing := closing, writers := writers } := by
  have hreq : ∀ t, (s.wake.callers t).request = (s.callers t).request := by
    intro t
    unfold ChannelVm.wake
    dsimp only
    split
    · rename_i r hb
      rw [hb]
      rfl
    · rfl
  have haw : ∀ t q, (s.wake.callers t).Awaits q ↔ (s.callers t).Awaits q := by
    intro t q
    unfold ChannelVm.wake
    dsimp only
    split
    · rename_i r hb
      rw [hb]
      exact Iff.rfl
    · exact Iff.rfl
  have hworking : ∀ q, (writers q).Working ↔ (s.writers q).Working := by
    intro q
    rcases hwriters q with heq | ⟨hwaking, hout⟩
    · rw [heq]
    · rw [hwaking, hout]
      exact Iff.rfl
  refine ⟨h.payload, ?_, ?_, ?_, ?_, ?_, ?_, ?_, ?_, ?_, h.resultIds, h.once, h.own,
    h.flight⟩
  · intro t₁ t₂ r₁ r₂ h₁ h₂
    exact h.single t₁ t₂ r₁ r₂ ((hreq t₁).symm.trans h₁) ((hreq t₂).symm.trans h₂)
  · intro hnone
    exact h.rest fun t => (hreq t).symm.trans (hnone t)
  · intro t
    show ChannelVm.Phase J _ s (s.wake.callers t)
    have hphase := h.phase t
    unfold ChannelVm.wake
    dsimp only
    split
    · rename_i r hb
      rw [hb] at hphase
      exact hphase
    · exact hphase
  · intro q hq
    obtain ⟨hw, hall⟩ := h.outstanding q (hq.imp_right (.imp_right (hworking q).mp))
    exact ⟨hw, fun t r hr => (haw t q).mpr (hall t r ((hreq t).symm.trans hr))⟩
  · intro q
    show ChannelVm.WriterOk J _ s q (writers q)
    rcases hwriters q with heq | ⟨-, hout⟩
    · rw [heq]
      exact h.writers q
    · rw [hout]
      trivial
  · intro t r hb
    have hno : s.wake.callers t ≠ .blocked r := by
      unfold ChannelVm.wake
      dsimp only
      split
      · nofun
      · rename_i hnot
        exact hnot r
    exact absurd hb hno
  · intro q hq
    obtain ⟨hlt, hnot⟩ := h.sent q hq
    refine ⟨hlt, fun t hu => ?_⟩
    have hold : s.wake.callers t = s.callers t ∨ ∃ r, s.wake.callers t = .loading r := by
      unfold ChannelVm.wake
      dsimp only
      split
      · exact .inr ⟨_, rfl⟩
      · exact .inl rfl
    have hu' : (s.wake.callers t).Unsent q := hu
    rcases hold with hold | ⟨r, hold⟩
    · rw [hold] at hu'
      exact hnot t hu'
    · rw [hold] at hu'
      exact hu'
  · intro t r answer hawaits hanswer hsome
    rcases h.completes t r answer ((haw t r).mp hawaits) hanswer hsome with hc | hc
    · exact .inl ((hworking r).mpr hc)
    · exact .inr hc
  · exact fun t r hr => h.ids t r ((hreq t).symm.trans hr)

theorem fill_length (payload : List UInt8) (stop : ℤ) :
    (ChannelVm.fill payload stop).length = payload.length := by
  unfold ChannelVm.fill
  dsimp only
  rw [length_append, length_replicate, length_drop]
  split <;> omega

/-- The host exchanges the state word. -/
theorem swap (h : ChannelInv J c.byteCapacity s)
    (hpc : s.writers q = .swapping w) (hw : s.word = .pending) :
    ChannelInv J c.byteCapacity { s.moveWriter q .waking with word := w } := by
  have hworking : (s.writers q).Working := by rw [hpc]; trivial
  have hdelivered : s.Delivered J c.byteCapacity q w := by
    have := h.writers q
    rw [hpc] at this
    exact this.2 hw
  obtain ⟨-, hall⟩ := h.outstanding q (.inr (.inr hworking))
  have hstate : w = .response ∨ w = .failure := by
    obtain ⟨answer, bytes, -, hwritten, -⟩ := hdelivered
    exact (written_spec hwritten).1
  have hne : w ≠ .pending ∧ w ≠ .closed := by rcases hstate with rfl | rfl <;> decide
  have hbusy : ∃ t r, (s.callers t).request = some r := by
    by_contra hno
    have hidle : ∀ t, (s.callers t).request = none := fun t => by
      cases hreq : (s.callers t).request with
      | none => rfl
      | some r => exact absurd ⟨t, r, hreq⟩ hno
    rcases h.rest hidle with h' | h' <;> rw [hw] at h' <;> cases h'
  obtain ⟨t₀, r₀, ht₀⟩ := hbusy
  have honly : ∀ q', s.Outstanding q' → q' = q := by
    intro q' hq'
    have h₁ := awaits_request (hall t₀ r₀ ht₀)
    have h₂ := awaits_request ((h.outstanding q' hq').2 t₀ r₀ ht₀)
    exact some.inj (h₂.symm.trans h₁)
  have hanswered : s.answers q ≠ none := by
    obtain ⟨answer, bytes, hanswer, -⟩ := hdelivered
    rw [hanswer]
    nofun
  have hwriter : ∀ q', (s.moveWriter q .waking).writers q' =
      if q' = q then .waking else s.writers q' := fun q' => update_apply ..
  have hquiet : ∀ q', ¬ ({ s.moveWriter q .waking with word := w } : ChannelVm V C).Outstanding
      q' := by
    rintro q' (hq' | hq' | hq')
    · have hold : q' ∈ s.posted := hq'
      rw [honly q' (.inl hold)] at hold
      exact hanswered (h.flight q hold).2
    · have hold : q' ∈ s.received ∧ s.answers q' = none := hq'
      rw [honly q' (.inr (.inl hold))] at hold
      exact hanswered hold.2
    · have hold : ((s.moveWriter q .waking).writers q').Working := hq'
      rw [hwriter] at hold
      split at hold
      · exact hold
      · exact ‹¬ q' = q› (honly q' (.inr (.inr hold)))
  have hidle : ∀ q', ¬ ((s.moveWriter q .waking).writers q').Working :=
    fun q' hq' => hquiet q' (.inr (.inr hq'))
  refine ⟨h.payload, h.single, ?_, ?_, fun q' hq' => absurd hq' (hquiet q'), ?_, ?_, h.sent, ?_,
    h.ids, h.resultIds, h.once, ?_, h.flight⟩
  · intro hnone
    have hnone₀ : (s.callers t₀).request = none := hnone t₀
    cases hnone₀.symm.trans ht₀
  · intro t
    show ChannelVm.Phase J _ _ (s.callers t)
    cases hreq : (s.callers t).request with
    | none =>
      revert hreq
      cases s.callers t with
      | out => exact fun _ => trivial
      | _ => nofun
    | some r =>
      have haw := hall t r hreq
      have hphase := h.phase t
      revert haw hphase
      cases s.callers t with
      | loading r' | entering r' | blocked r' =>
        rintro rfl -
        exact .inr (.inr hdelivered)
      | completing r' =>
        rintro rfl -
        exact .inr hdelivered
      | sizing r' w' =>
        rintro ⟨rfl, rfl⟩ (hp | hp)
        · rw [hw] at hp
          cases hp.2
        · obtain ⟨answer, bytes, -, hwritten, -⟩ := hp.1
          exact absurd rfl (written_ne_closed hwritten)
      | _ => exact fun haw => absurd haw id
  · intro q'
    have hno := hidle q'
    show ChannelVm.WriterOk J _ _ q' ((s.moveWriter q .waking).writers q')
    rw [hwriter] at hno ⊢
    split
    · rename_i heq
      rw [heq]
      exact hanswered
    · rename_i heq
      rw [if_neg heq] at hno
      exact WriterOk.idle (h.writers q') hno rfl
  · refine fun t r _ => .inr (.inr ⟨q, ?_⟩)
    exact (hwriter q).trans (if_pos rfl)
  · exact fun _ _ _ _ _ _ => .inr hne.1
  · intro r x hmem
    have hown := h.own r x hmem
    cases x with
    | closed | closedDuring =>
      rw [ChannelVm.Own, hw] at hown
      cases hown
    | _ => exact hown

/-- Every step of the host in `write`. -/
theorem writerStep (h : ChannelInv J c.byteCapacity s)
    (hstep : s.writerStep J c.byteCapacity q = some s') : ChannelInv J c.byteCapacity s' := by
  have hok := h.writers q
  unfold ChannelVm.writerStep at hstep
  generalize hpc : s.writers q = pc at hstep hok
  cases pc with
  | out =>
    cases hstep
  | started answer =>
    cases hstep
    split
    · split
      · rename_i w bytes hwritten
        exact h.moveWriter hpc (fun _ => trivial) ⟨answer, hok, hwritten⟩ nofun
          fun _ => .inl trivial
      · rename_i hnone
        refine h.moveWriter hpc nofun trivial nofun fun _ => .inr (.inr ?_)
        intro answer' hanswer'
        cases hok.symm.trans hanswer'
        exact hnone
    · exact h.moveWriter hpc nofun trivial nofun fun _ => .inr (.inl ‹_›)
  | encoded w bytes =>
    cases hstep
    exact h.moveWriter hpc (fun _ => trivial) hok nofun fun _ => .inl trivial
  | filling w bytes stop =>
    cases hstep
    have hfill := h.hostMemory (q := q) (by rw [hpc]; trivial) s.length (ChannelVm.fill s.payload stop)
      ((fill_length _ _).trans h.payload) (by rw [hpc]; exact hok)
    exact hfill.moveWriter hpc (fun _ => trivial) hok nofun fun _ => .inl trivial
  | setting w bytes =>
    obtain ⟨answer, hanswer, hwritten⟩ := hok
    have hle : bytes.length ≤ s.payload.length := by
      rw [h.payload]
      exact written_length hwritten
    dsimp only at hstep
    rw [if_pos hle] at hstep
    cases hstep
    have hset := h.hostMemory (q := q) (by rw [hpc]; trivial) s.length
      (bytes ++ s.payload.drop bytes.length)
      (by rw [length_append, length_drop, Nat.add_sub_cancel' hle, h.payload])
      (by rw [hpc]; exact ⟨answer, hanswer, hwritten⟩)
    have htake : (bytes ++ s.payload.drop bytes.length).take bytes.length = bytes := by
      rw [take_append_of_le_length (Nat.le_refl _), take_length]
    exact hset.moveWriter hpc (fun _ => trivial) ⟨⟨answer, hanswer, hwritten⟩, fun _ => htake⟩ nofun
      fun _ => .inl trivial
  | storing w bytes =>
    cases hstep
    obtain ⟨⟨answer, hanswer, hwritten⟩, htake⟩ := hok
    generalize hn : toInt32 bytes.length = n
    have hstore := h.hostMemory (q := q) (by rw [hpc]; trivial) n s.payload
      h.payload (by rw [hpc]; exact ⟨⟨answer, hanswer, hwritten⟩, htake⟩)
    have hanswered : s.answers q ≠ none := by
      rw [hanswer]
      nofun
    exact hstore.moveWriter hpc (fun _ => trivial) ⟨hanswered, fun hp =>
      ⟨answer, bytes, hanswer, hwritten, hn.symm, htake hp⟩⟩ nofun fun _ => .inl trivial
  | swapping w =>
    dsimp only at hstep
    split at hstep
    · rename_i hw
      cases hstep
      exact h.swap hpc hw
    · rename_i hw
      cases hstep
      exact h.moveWriter hpc nofun trivial nofun fun _ => .inr (.inl hw)
  | waking =>
    cases hstep
    refine h.wake s.closing _ fun q' => ?_
    by_cases heq : q' = q
    · subst heq
      exact .inr ⟨hpc, update_self ..⟩
    · exact .inl (update_of_ne heq _ _)

theorem receive (h : ChannelInv J c.byteCapacity s) (hr : r ∈ s.posted) :
    ChannelInv J c.byteCapacity { s with
      posted := s.posted.filter fun q => q ≠ r
      received := r :: s.received } := by
  have hposted : ∀ q, q ∈ s.posted.filter (fun q => q ≠ r) → q ∈ s.posted ∧ q ≠ r := by
    intro q hq
    simpa using mem_filter.mp hq
  refine { h with outstanding := ?_, sent := ?_, flight := ?_ }
  · intro q hq
    apply h.outstanding
    rcases hq with hq | ⟨hq, hnone⟩ | hq
    · exact .inl (hposted q hq).1
    · rcases mem_cons.mp hq with rfl | hq
      · exact .inl hr
      · exact .inr (.inl ⟨hq, hnone⟩)
    · exact .inr (.inr hq)
  · intro q hq
    apply h.sent
    rcases hq with hq | hq | hq
    · exact .inl (hposted q hq).1
    · rcases mem_cons.mp hq with rfl | hq
      · exact .inl hr
      · exact .inr (.inl hq)
    · exact .inr (.inr hq)
  · intro q hq
    obtain ⟨hq, hne⟩ := hposted q hq
    obtain ⟨hnot, hnone⟩ := h.flight q hq
    refine ⟨fun hmem => ?_, hnone⟩
    rcases mem_cons.mp hmem with heq | hmem
    · exact hne heq
    · exact hnot hmem

/-- The host begins to answer a request. -/
theorem answer (h : ChannelInv J c.byteCapacity s) (hr : r ∈ s.received)
    (hnone : s.answers r = none) (answer : HostAnswer V C) :
    ChannelInv J c.byteCapacity { s.moveWriter r (.started answer) with
      answers := update s.answers r (some answer) } := by
  have hanswers : ∀ {q a}, s.answers q = some a → update s.answers r (some answer) q = some a := by
    intro q a ha
    have hne : q ≠ r := by
      rintro rfl
      cases hnone.symm.trans ha
    rw [update_of_ne hne, ha]
  have hdelivered : ∀ {q w}, s.Delivered J c.byteCapacity q w →
      ({ s.moveWriter r (.started answer) with
        answers := update s.answers r (some answer) } : ChannelVm V C).Delivered J
          c.byteCapacity q w := by
    rintro q w ⟨a, bytes, ha, hrest⟩
    exact ⟨a, bytes, hanswers ha, hrest⟩
  have hwriter : ∀ q, (s.moveWriter r (.started answer)).writers q =
      if q = r then .started answer else s.writers q := fun q => update_apply ..
  have hout : s.writers r = .out := by
    have hok := h.writers r
    cases hpc : s.writers r with
    | out => rfl
    | started a =>
      rw [hpc] at hok
      cases hnone.symm.trans hok
    | encoded w bytes | filling w bytes _ | setting w bytes =>
      rw [hpc] at hok
      obtain ⟨a, ha, -⟩ := hok
      cases hnone.symm.trans ha
    | storing w bytes =>
      rw [hpc] at hok
      obtain ⟨⟨a, ha, -⟩, -⟩ := hok
      cases hnone.symm.trans ha
    | swapping w =>
      rw [hpc] at hok
      exact absurd hnone hok.1
    | waking =>
      rw [hpc] at hok
      exact absurd hnone hok
  refine ⟨h.payload, h.single, h.rest, ?_, ?_, ?_, ?_, ?_, ?_, h.ids, h.resultIds, h.once, ?_, ?_⟩
  · intro t
    have hphase := h.phase t
    revert hphase
    show ChannelVm.Phase J _ s (s.callers t) → ChannelVm.Phase J _ _ (s.callers t)
    cases s.callers t with
    | loading q | entering q | blocked q => exact .imp_right (.imp_right hdelivered)
    | completing q => exact .imp_right hdelivered
    | sizing q w => exact .imp_right fun hp => ⟨hdelivered hp.1, hp.2⟩
    | refusing q w | reading q w n => exact fun hp => ⟨hdelivered hp.1, hp.2⟩
    | finishing q w v =>
      rintro ⟨⟨a, bytes, ha, hrest⟩, hw⟩
      exact ⟨⟨a, bytes, hanswers ha, hrest⟩, hw⟩
    | _ => exact id
  · intro q hq
    apply h.outstanding
    rcases hq with hq | ⟨hq, hq'⟩ | hq
    · exact .inl hq
    · by_cases heq : q = r
      · exact .inr (.inl ⟨hq, heq ▸ hnone⟩)
      · exact .inr (.inl ⟨hq, (update_of_ne heq _ _).symm.trans hq'⟩)
    · have hq' : ((s.moveWriter r (.started answer)).writers q).Working := hq
      rw [hwriter] at hq'
      split at hq'
      · rename_i heq
        exact .inr (.inl ⟨heq ▸ hr, heq ▸ hnone⟩)
      · exact .inr (.inr hq')
  · intro q
    show ChannelVm.WriterOk J _ _ q ((s.moveWriter r (.started answer)).writers q)
    rw [hwriter]
    split
    · rename_i heq
      rw [heq]
      exact update_self ..
    · rename_i heq
      have hsome : s.answers q ≠ none → update s.answers r (some answer) q ≠ none := by
        rw [update_of_ne heq]
        exact id
      have hok := h.writers q
      revert hok
      cases s.writers q with
      | out => exact id
      | started a => exact hanswers
      | encoded w bytes | filling w bytes _ | setting w bytes =>
        rintro ⟨a, ha, hrest⟩
        exact ⟨a, hanswers ha, hrest⟩
      | storing w bytes =>
        rintro ⟨⟨a, ha, hrest⟩, htake⟩
        exact ⟨⟨a, hanswers ha, hrest⟩, htake⟩
      | swapping w => exact fun hok => ⟨hsome hok.1, fun hp => hdelivered (hok.2 hp)⟩
      | waking => exact hsome
  · intro t q hb
    rcases h.awake t q hb with hw | hw | ⟨q', hq'⟩
    · exact .inl hw
    · exact .inr (.inl hw)
    · refine .inr (.inr ⟨q', (hwriter q').trans ?_⟩)
      have hne : q' ≠ r := by
        rintro rfl
        cases hout.symm.trans hq'
      rw [if_neg hne, hq']
  · intro q hq
    apply h.sent
    rcases hq with hq | hq | hq
    · exact .inl hq
    · exact .inr (.inl hq)
    · by_cases heq : q = r
      · exact .inr (.inl (heq ▸ hr))
      · exact .inr (.inr fun hnone' => hq ((update_of_ne heq _ _).trans hnone'))
  · intro t q a haw ha hsome
    show ((s.moveWriter r (.started answer)).writers q).Working ∨ _
    rw [hwriter]
    split
    · exact .inl trivial
    · rename_i heq
      exact h.completes t q a haw ((update_of_ne heq _ _).symm.trans ha) hsome
  · intro q x hmem
    have hown := h.own q x hmem
    cases x with
    | closed | closedDuring | concurrent | notifyThrew _ => exact hown
    | _ =>
      obtain ⟨a, ha, hx⟩ := hown
      exact ⟨a, hanswers ha, hx⟩
  · intro q hq
    obtain ⟨hnot, hq'⟩ := h.flight q hq
    have hne : q ≠ r := by
      rintro rfl
      exact hnot hr
    exact ⟨hnot, (update_of_ne hne _ _).trans hq'⟩

theorem close (h : ChannelInv J c.byteCapacity s) :
    ChannelInv J c.byteCapacity { s with word := .closed, closing := s.closing + 1 } := by
  refine ⟨h.payload, h.single, fun _ => .inr rfl, ?_, ?_, ?_, ?_, h.sent, ?_, h.ids, h.resultIds,
    h.once, ?_, h.flight⟩
  · intro t
    have hphase := h.phase t
    revert hphase
    show ChannelVm.Phase J _ s (s.callers t) → ChannelVm.Phase J _ _ (s.callers t)
    cases s.callers t with
    | out => exact id
    | reserved q | notifying q => exact fun _ => .inr rfl
    | resetting q cause => exact fun hp => ⟨hp.1, .inr rfl⟩
    | loading q | entering q | blocked q | completing q => exact fun _ => .inl rfl
    | sizing q w => exact .imp (fun hp => ⟨hp.1, rfl⟩) fun hp => ⟨hp.1, .inr rfl⟩
    | refusing q w | reading q w n => exact fun hp => ⟨hp.1, .inr rfl, hp.2.2⟩
    | finishing q w v => exact fun hp => ⟨hp.1, .inr rfl⟩
  · exact fun q hq => ⟨.inr rfl, (h.outstanding q hq).2⟩
  · intro q
    have hok := h.writers q
    revert hok
    show ChannelVm.WriterOk J _ s q (s.writers q) → ChannelVm.WriterOk J _ _ q (s.writers q)
    cases s.writers q with
    | storing w bytes | swapping w => exact fun hok => ⟨hok.1, nofun⟩
    | _ => exact id
  · exact fun _ _ _ => .inr (.inl (Nat.succ_pos _))
  · exact fun _ _ _ _ _ _ => .inr nofun
  · intro q x hmem
    have hown := h.own q x hmem
    cases x with
    | closed | closedDuring => rfl
    | _ => exact hown

theorem step (h : ChannelInv J c.byteCapacity s) {e : ChannelEvent V C}
    (hstep : channelStep J c.byteCapacity s e = some s') : ChannelInv J c.byteCapacity s' := by
  cases e with
  | dispatchSync t =>
    simp only [channelStep] at hstep
    split at hstep
    · rename_i ht
      cases hstep
      exact h.dispatchSync ht
    · cases hstep
  | notified t =>
    simp only [channelStep] at hstep
    split at hstep
    · rename_i r ht
      cases hstep
      exact h.notified ht
    · cases hstep
  | notifyThrows t cause =>
    simp only [channelStep] at hstep
    split at hstep
    · rename_i r ht
      cases hstep
      exact h.notifyThrows ht cause
    · cases hstep
  | caller t => exact h.callerStep hstep
  | receive r =>
    simp only [channelStep, ite_none_right_eq_some] at hstep
    obtain ⟨hr, hstep⟩ := hstep
    cases hstep
    exact h.receive hr
  | answer r a =>
    simp only [channelStep, ite_none_right_eq_some] at hstep
    obtain ⟨⟨hr, hnone⟩, hstep⟩ := hstep
    cases hstep
    exact h.answer hr (isNone_iff_eq_none.mp hnone) a
  | write r => exact h.writerStep hstep
  | close =>
    cases hstep
    exact h.close
  | closeNotifies =>
    simp only [channelStep, ite_none_right_eq_some] at hstep
    obtain ⟨-, hstep⟩ := hstep
    cases hstep
    exact h.wake _ s.writers fun q => .inl rfl

structure KeepsClosed (s s' : ChannelVm V C) : Prop where
  word : s'.word = .closed
  loaded : ∀ t r, (s'.callers t).Loaded r → (s.callers t).Loaded r
  results : ∀ r x, (r, x) ∈ s'.results → (r, x) ∈ s.results ∨ x.Throws ∨
    ∃ t, (s.callers t).Loaded r

theorem KeepsClosed.move (hw : s.word = .closed) (hloaded : ∀ r, pc.Loaded r →
    (s.callers t).Loaded r) : KeepsClosed s (s.move t pc) := by
  refine ⟨hw, fun t' r hl => ?_, fun r x hmem => .inl hmem⟩
  simp only [ChannelVm.move, update_apply] at hl
  split at hl
  · rename_i heq
    rw [heq]
    exact hloaded r hl
  · exact hl

theorem KeepsClosed.finish {word : ChannelWord} (hw : word = .closed)
    (hx : x.Throws ∨ (s.callers t).Loaded r) : KeepsClosed s (s.finish t r word x) := by
  refine ⟨hw, fun t' q hl => ?_, fun q y hmem => ?_⟩
  · simp only [ChannelVm.finish, update_apply] at hl
    split at hl
    · cases hl
    · exact hl
  · rcases mem_cons.mp hmem with heq | hmem
    · cases heq
      exact .inr (hx.imp_right fun hl => ⟨t, hl⟩)
    · exact .inl hmem

theorem KeepsClosed.wake (hw : s.word = .closed) {closing : ℕ} {writers : ℕ → WriterPc V C} :
    KeepsClosed s { s.wake with closing := closing, writers := writers } := by
  refine ⟨hw, fun t r hl => ?_, fun r x hmem => .inl hmem⟩
  have hl' : (s.wake.callers t).Loaded r := hl
  unfold ChannelVm.wake at hl'
  dsimp only at hl'
  split at hl'
  · cases hl'
  · exact hl'

theorem exchange_closed (hw : s.word = .closed) {w' : ChannelWord} (hne : w ≠ .closed) :
    s.compareExchange w w' = .closed := by
  rw [ChannelVm.compareExchange, hw, if_neg hne.symm]

theorem callerStep_closed (h : ChannelInv J c.byteCapacity s) (hw : s.word = .closed)
    (hstep : s.callerStep J c.byteCapacity t = some s') :
    KeepsClosed s s' := by
  have hphase := h.phase t
  unfold ChannelVm.callerStep at hstep
  generalize hpc : s.callers t = pc at hstep hphase
  cases pc with
  | out | notifying r | blocked r =>
    cases hstep
  | reserved r =>
    cases hstep
    have hm : KeepsClosed s (s.move t (.notifying r)) := .move hw nofun
    exact { hm with }
  | resetting r cause =>
    cases hstep
    exact .finish (exchange_closed hw (by decide)) (.inl nofun)
  | loading r | entering r =>
    cases hstep
    rw [if_neg (by rw [hw]; decide)]
    exact .move hw nofun
  | completing r =>
    cases hstep
    exact .move hw fun q hl => absurd hw hl.2
  | sizing r w =>
    dsimp only at hstep
    split at hstep
    · cases hstep
      exact .finish hw (.inl nofun)
    · rename_i hne
      have hloaded : ∀ q, r = q → (s.callers t).Loaded q := by
        rintro q rfl
        rw [hpc]
        exact ⟨rfl, hne⟩
      split at hstep
      · cases hstep
        exact .move hw hloaded
      · cases hstep
        exact .move hw hloaded
  | refusing r w =>
    cases hstep
    obtain ⟨⟨answer, bytes, -, hwritten, -⟩, -⟩ := hphase
    exact .finish (exchange_closed hw (written_ne_closed hwritten)) (.inl nofun)
  | reading r w n =>
    cases hstep
    refine .move hw fun q hl => ?_
    rw [hpc]
    exact hl
  | finishing r w v =>
    cases hstep
    obtain ⟨⟨answer, bytes, -, hwritten, -⟩, -⟩ := hphase
    refine .finish (exchange_closed hw (written_ne_closed hwritten)) (.inr ?_)
    rw [hpc]
    rfl

theorem writerStep_closed (hw : s.word = .closed)
    (hstep : s.writerStep J c.byteCapacity q = some s') : KeepsClosed s s' := by
  have hsame : ∀ {u : ChannelVm V C}, u.word = s.word → u.callers = s.callers →
      u.results = s.results → KeepsClosed s u := by
    intro u hword hcallers hresults
    exact ⟨hword.trans hw, fun t r hl => hcallers ▸ hl, fun r x hmem => .inl (hresults ▸ hmem)⟩
  unfold ChannelVm.writerStep at hstep
  split at hstep
  · cases hstep
  iterate 3
    · cases hstep
      exact hsame rfl rfl rfl
  · split at hstep <;> cases hstep <;> exact hsame rfl rfl rfl
  · cases hstep
    exact hsame rfl rfl rfl
  · rw [if_neg (by rw [hw]; decide)] at hstep
    cases hstep
    exact hsame rfl rfl rfl
  · cases hstep
    exact .wake hw

/-- A closed channel stays closed, and the calls that end are those that throw or those that had
found their request completed. -/
theorem step_closed (h : ChannelInv J c.byteCapacity s) (hw : s.word = .closed)
    {e : ChannelEvent V C}
    (hstep : channelStep J c.byteCapacity s e = some s') : KeepsClosed s s' := by
  cases e with
  | dispatchSync t =>
    simp only [channelStep] at hstep
    split at hstep
    · cases hstep
      have hrefused : s.dispatchSync t = ({ s with nextCall := s.nextCall + 1 } :
          ChannelVm V C).finish t s.nextCall s.word .closed := by
        simp only [ChannelVm.dispatchSync, hw]
      rw [hrefused]
      have hf : KeepsClosed s (s.finish t s.nextCall s.word .closed) := .finish hw (.inl nofun)
      exact { hf with }
    · cases hstep
  | notified t =>
    simp only [channelStep] at hstep
    split at hstep
    · rename_i r ht
      cases hstep
      have hm : KeepsClosed s (s.move t (.loading r)) := .move hw nofun
      exact { hm with }
    · cases hstep
  | notifyThrows t cause =>
    simp only [channelStep] at hstep
    split at hstep
    · rename_i r ht
      cases hstep
      have hm : KeepsClosed s (s.move t (.resetting r cause)) := .move hw nofun
      exact { hm with }
    · cases hstep
  | caller t => exact h.callerStep_closed hw hstep
  | receive r | answer r a =>
    simp only [channelStep, ite_none_right_eq_some] at hstep
    obtain ⟨-, hstep⟩ := hstep
    cases hstep
    exact ⟨hw, fun _ _ hl => hl, fun _ _ hmem => .inl hmem⟩
  | write r => exact writerStep_closed hw hstep
  | close =>
    cases hstep
    exact ⟨rfl, fun _ _ hl => hl, fun _ _ hmem => .inl hmem⟩
  | closeNotifies =>
    simp only [channelStep, ite_none_right_eq_some] at hstep
    obtain ⟨-, hstep⟩ := hstep
    cases hstep
    exact .wake hw

theorem run_closed (h : ChannelInv J c.byteCapacity s) (hw : s.word = .closed)
    (hs' : Reachable (channelStep J c.byteCapacity) s s') :
    s'.word = .closed ∧ ∀ r x, (r, x) ∈ s'.results → (r, x) ∈ s.results ∨ x.Throws ∨
      ∃ t, (s.callers t).Loaded r := by
  have hrun : ChannelInv J c.byteCapacity s' ∧ KeepsClosed s s' := by
    apply hs'.invariant (fun u => ChannelInv J c.byteCapacity u ∧ KeepsClosed s u)
    · exact ⟨h, hw, fun _ _ hl => hl, fun _ _ hmem => .inl hmem⟩
    · rintro u e v ⟨hu, hkeep⟩ - hstep
      have hnext := hu.step_closed hkeep.word hstep
      refine ⟨hu.step hstep, hnext.word, fun t r hl => hkeep.loaded t r (hnext.loaded t r hl), ?_⟩
      intro r x hmem
      rcases hnext.results r x hmem with hmem | hx | ⟨t, hl⟩
      · exact hkeep.results r x hmem
      · exact .inr (.inl hx)
      · exact .inr (.inr ⟨t, hkeep.loaded t r hl⟩)
  exact ⟨hrun.2.word, hrun.2.results⟩

end ChannelInv

/-- The protocol holds in every interleaving of the threads that call with the host. -/
theorem hostChannel_protocol (c : HostChannel) (J : HostCodec V C) {s : ChannelVm V C}
    (hs : Reachable (channelStep J c.byteCapacity) (.start V C c.byteCapacity) s) :
    s.Protocol J c.byteCapacity := by
  have h : ChannelInv J c.byteCapacity s :=
    hs.invariant (ChannelInv J c.byteCapacity) .init fun _ _ _ h _ hstep => h.step hstep
  constructor
  · exact h.own
  · exact h.once
  · exact h.single
  · intro t hnone hw
    have hidle : s.word = .idle := (h.rest hnone).resolve_right hw
    simp only [ChannelVm.dispatchSync, hidle]
    exact update_self ..
  · exact fun answer state bytes => outcome_exact
  · exact fun value bytes => outcome_oversized
  · exact h.payload
  · intro r state bytes hr
    have hok := h.writers r
    rw [hr] at hok
    obtain ⟨answer, -, hwritten⟩ := hok
    rw [h.payload]
    exact written_length hwritten
  · exact h.completes
  · exact h.awake
  · exact fun hw s' hs' => h.run_closed hw hs'

def numberCodec : HostCodec (Except (String × String) ℕ) String where
  encode
    | .ok n => .ok (asciiBytes ("\x7b\"value\":" ++ n.repr ++ "\x7d"))
    | .error (name, message) => .ok (asciiBytes ("\x7b\"value\":\x7b\"name\":\"" ++ name ++
        "\",\"message\":\"" ++ message ++ "\"\x7d\x7d"))
  decode bytes := .ok (.ok ((bytes.drop 9).dropLast.foldl (fun n b => 10 * n + (b.toNat - 48)) 0))
  failure cause := .error ("Error", cause)
  unserializable cause := .error ("TypeError", cause)

/-- A call that is answered while the thread enters the wait. -/
theorem hostChannel_protocol_answered :
    ∃ s, Reachable (channelStep numberCodec 256) (.start _ _ 256) s ∧
      s.results = [(0, .returned (.ok 7))] ∧ s.word = .idle ∧ s.Protocol numberCodec 256 := by
  have hrun : ((run (channelStep numberCodec 256) (.start _ _ 256)
      [.dispatchSync 0, .caller 0, .notified 0, .caller 0, .receive 0, .answer 0 (.respond (.ok 7)),
        .write 0, .write 0, .write 0, .write 0, .write 0, .write 0, .caller 0, .write 0, .caller 0,
        .caller 0, .caller 0, .caller 0, .caller 0]).any fun s =>
      s.results = [(0, .returned (.ok 7))] ∧ s.word = .idle) = true := by decide +kernel
  obtain ⟨s, hs, hend⟩ := (any_eq_true _ _).mp hrun
  obtain ⟨hresults, hword⟩ := of_decide_eq_true hend
  have hreach := reachable_of_run hs
  exact ⟨s, hreach, hresults, hword,
    hostChannel_protocol ⟨256, by decide, by decide⟩ numberCodec hreach⟩

end TraceJvm
