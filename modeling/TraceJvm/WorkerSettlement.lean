import TraceJvm.WorkerInvariant

/-! Exactly when the table of a client is the set of its unsettled operations: no request fails to
be posted after its entry has been made, and no disposal ends while other operations are pending. -/
namespace TraceJvm

open Transition List

namespace ClientState

/-- The table holds the operations whose promise is unsettled, and no promise is settled again. -/
structure Exact (s : ClientState) : Prop where
  table : ∀ id, id ∈ s.pending ↔ ∃ op, s.operations id = some op ∧ op.settlements = []
  once : ∀ id op, s.operations id = some op → op.settlements.length ≤ 1

/-- And once the client is closed, by a disposal, a termination or an error, no operation is left
unsettled and no call waits for such an operation. -/
structure Settles (s : ClientState) : Prop extends Exact s where
  closed : s.worker = none →
    (∀ id op, s.operations id = some op → op.settlements ≠ []) ∧
      ∀ c ∈ s.calls, s.outcome c.promise ≠ none

def made (s : ClientState) : ClientEvent → Option (Option ℕ × Posting)
  | .initializeCall signal p => if s.initializationGate = none then some (signal, p) else none
  | .useCall signal p => if s.initializationGate = none then some (signal, p) else none
  | .disposeCall p => if s.worker = none then none else some (none, p)
  | .resume k p =>
    match s.calls[k]? with
    | some (.opening promise _ signal) =>
      if s.outcome promise = some .resolved then some (signal, p) else none
    | _ => none
  | _ => none

def Unposted (s : ClientState) (signal : Option ℕ) (p : Posting) : Prop :=
  s.isAborted signal = false ∧ (s.worker ≠ none ∨ p.created = true) ∧ p.posted = false

/-- The step posts the message of its request, if it comes so far, and if it ends a disposal, then
nothing is pending. -/
def Keeps (s : ClientState) (e : ClientEvent) : Prop :=
  (∀ signal p, s.made e = some (signal, p) → ¬ s.Unposted signal p) ∧
    ∀ k p promise, e = .resume k p → s.calls[k]? = some (.disposing promise) → s.pending = []

variable {client : WorkerClient} {s s' s₁ : ClientState} {type : RequestType} {signal : Option ℕ}
  {p : Posting} {worker : ℕ}

theorem Exact.congr (hexact : s.Exact) (hpending : s'.pending = s.pending)
    (hoperations : s'.operations = s.operations) : s'.Exact := by
  obtain ⟨htable, honce⟩ := hexact
  rw [← hpending, ← hoperations] at htable
  rw [← hoperations] at honce
  exact ⟨htable, honce⟩

theorem settles_iff (hs : s.Sound client) : s.Settles ↔ s.Exact := by
  refine ⟨fun h => h.toExact, fun hexact => ⟨hexact, fun hworker => ?_⟩⟩
  have hsettled : ∀ id op, s.operations id = some op → op.settlements ≠ [] := by
    intro id op hop hnil
    have hid := (hexact.table id).mpr ⟨op, hop, hnil⟩
    rw [hs.pending_eq_nil hworker] at hid
    cases hid
  refine ⟨hsettled, fun c hc => ?_⟩
  cases hpromise : c.promise with
  | refused k => exact nofun
  | operation id =>
    obtain ⟨op, hop, -⟩ := hs.calls c hc id hpromise
    intro hnone
    rw [outcome, hop, Option.bind_some] at hnone
    exact hsettled id op hop (head?_eq_none_iff.mp hnone)

/-! ### The parts of a step -/

theorem exact_post (hexact : s.Exact) (type : RequestType)
    (signal : Option ℕ) (posted : Bool) :
    (s.post worker type signal posted).Exact ↔ posted = true := by
  have hself := post_operations_self s worker type signal posted
  have hmem : ∀ id, id ∈ (s.post worker type signal posted).pending ↔
      id ∈ s.pending ∨ id = s.nextId + 1 := by
    intro id
    exact mem_append.trans (or_congr_right mem_singleton)
  constructor
  · intro hnext
    obtain ⟨op, hop, hnil⟩ := (hnext.table (s.nextId + 1)).mp ((hmem _).mpr (.inr rfl))
    rw [hself] at hop
    cases hop
    cases posted with
    | true => rfl
    | false => cases hnil
  · rintro rfl
    refine ⟨fun id => ?_, fun id op hop => ?_⟩
    · rw [hmem]
      by_cases hid : id = s.nextId + 1
      · rw [hid, hself]
        exact iff_of_true (.inr rfl) ⟨_, rfl, rfl⟩
      · rw [post_operations_of_ne hid, or_iff_left hid]
        exact hexact.table id
    · by_cases hid : id = s.nextId + 1
      · rw [hid, hself] at hop
        cases hop
        exact Nat.zero_le 1
      · rw [post_operations_of_ne hid] at hop
        exact hexact.once id op hop

variable {promise : Option RequestPromise}

theorem exact_requests (hexact : s.Exact)
    (h : Requests s type signal p (promise, s₁)) : s₁.Exact ↔ ¬ s.Unposted signal p := by
  unfold Unposted
  cases h with
  | refused haborted =>
    refine iff_of_true (hexact.congr rfl rfl) ?_
    rintro ⟨hnot, -⟩
    rw [haborted] at hnot
    cases hnot
  | thrown haborted hworker hcreated =>
    refine iff_of_true hexact ?_
    rintro ⟨-, hsome | htrue, -⟩
    · exact hsome hworker
    · rw [hcreated] at htrue
      cases htrue
  | current haborted worker hworker =>
    rw [exact_post hexact type signal p.posted, and_iff_right haborted,
      and_iff_right (.inl (by rw [hworker]; exact nofun)), Bool.not_eq_false]
  | created haborted hworker hcreated =>
    have hexact' : Exact { s with worker := some s.workers, workers := s.workers + 1 } :=
      hexact.congr rfl rfl
    rw [exact_post hexact' type signal p.posted, and_iff_right haborted,
      and_iff_right (.inr hcreated), Bool.not_eq_false]

theorem Exact.close (hexact : s.Exact) : (s.close true).Exact := by
  refine ⟨fun id => iff_of_false not_mem_nil ?_, fun id op' hop' => ?_⟩
  · rintro ⟨op', hop', hnil⟩
    have hop' : rejectAll s.operations s.pending id = some op' := hop'
    unfold rejectAll at hop'
    split at hop'
    · obtain ⟨op, -, rfl⟩ := Option.map_eq_some_iff.mp hop'
      exact settle_ne_nil op .rejected hnil
    · rename_i hmissing
      exact hmissing ((hexact.table id).mpr ⟨op', hop', hnil⟩)
  · have hop' : rejectAll s.operations s.pending id = some op' := hop'
    unfold rejectAll at hop'
    split at hop'
    · rename_i hid
      obtain ⟨op, hop, hnil⟩ := (hexact.table id).mp hid
      rw [hop] at hop'
      cases hop'
      show (op.settlements ++ [Settlement.rejected]).length ≤ 1
      rw [hnil]
      exact Nat.le_refl 1
    · exact hexact.once id op' hop'

theorem exact_drop (hexact : s.Exact) : (s.close false).Exact ↔ s.pending = [] := by
  constructor
  · intro hnext
    apply eq_nil_iff_forall_not_mem.mpr
    intro id hid
    exact not_mem_nil ((hnext.table id).mpr ((hexact.table id).mp hid))
  · intro hnil
    exact hexact.congr hnil.symm rfl

variable {id : ℕ}

theorem Exact.settle (hexact : s.Exact) (hid : id ∈ s.pending) (r : Settlement) :
    (s.settle id r).Exact := by
  obtain ⟨op, hop, hnil⟩ := (hexact.table id).mp hid
  have hself : (s.settle id r).operations id = some (op.settle r) := by
    show Function.update s.operations id _ id = _
    rw [Function.update_self, hop]
    rfl
  have hother : ∀ j, j ≠ id → (s.settle id r).operations j = s.operations j :=
    fun j hj => Function.update_of_ne hj _ _
  have hmem : ∀ j, j ∈ (s.settle id r).pending ↔ j ∈ s.pending ∧ j ≠ id := by
    intro j
    show j ∈ s.pending.filter (· ≠ id) ↔ _
    rw [mem_filter, decide_eq_true_iff]
  refine ⟨fun j => ?_, fun j op' hop' => ?_⟩
  · rw [hmem]
    by_cases hj : j = id
    · rw [hj, hself]
      refine iff_of_false (fun h => h.2 rfl) ?_
      rintro ⟨_, ⟨⟩, hnil'⟩
      exact settle_ne_nil op r hnil'
    · rw [hother j hj, and_iff_left hj]
      exact hexact.table j
  · by_cases hj : j = id
    · rw [hj, hself] at hop'
      cases hop'
      show (op.settlements ++ [r]).length ≤ 1
      rw [hnil]
      exact Nat.le_refl 1
    · rw [hother j hj] at hop'
      exact hexact.once j op' hop'

theorem cancelAll_table (s : ClientState) (ids : List ℕ) :
    (ids.foldl cancel s).pending = s.pending ∧ (ids.foldl cancel s).operations = s.operations := by
  induction ids generalizing s with
  | nil => exact ⟨rfl, rfl⟩
  | cons id ids ih =>
    obtain ⟨hpending, hoperations⟩ := ih (s.cancel id)
    have hcancel : (s.cancel id).pending = s.pending ∧ (s.cancel id).operations = s.operations := by
      unfold cancel
      split <;> exact ⟨rfl, rfl⟩
    exact ⟨hpending.trans hcancel.1, hoperations.trans hcancel.2⟩

theorem clearGate_table (s : ClientState) (promise : RequestPromise) (own : Bool) :
    (s.clearGate promise own).pending = s.pending ∧
      (s.clearGate promise own).operations = s.operations := by
  unfold clearGate
  split <;> exact ⟨rfl, rfl⟩

/-! ### Every step -/

variable {result : Option (RequestPromise × Bool)}

theorem exact_opens (hexact : s.Exact) (h : Opens client s signal p (result, s₁)) :
    s₁.Exact ↔ (s.initializationGate = none → ¬ s.Unposted signal p) := by
  cases h with
  | gate gate hgate =>
    refine iff_of_true hexact ?_
    rw [hgate]
    exact nofun
  | thrown hgate s₁ hrequests =>
    rw [exact_requests hexact hrequests, hgate]
    exact ⟨fun h _ => h, fun h => h rfl⟩
  | requested hgate promise s₁ hrequests =>
    have hnext := exact_requests hexact hrequests
    rw [hgate]
    exact ⟨fun h _ => hnext.mp (h.congr rfl rfl), fun h => (hnext.mpr (h rfl)).congr rfl rfl⟩

variable {e : ClientEvent}

theorem keeps_of_quiet (hmade : s.made e = none)
    (hdisposing : ∀ k p promise, e = .resume k p → s.calls[k]? ≠ some (.disposing promise)) :
    s.Keeps e := by
  refine ⟨fun signal p hsome => ?_, fun k p promise he hc => absurd hc (hdisposing k p promise he)⟩
  rw [hmade] at hsome
  cases hsome

theorem keeps_iff {makes : Prop} [Decidable makes]
    (hmade : s.made e = if makes then some (signal, p) else none)
    (hdisposing : ∀ k p promise, e = .resume k p → s.calls[k]? ≠ some (.disposing promise)) :
    s.Keeps e ↔ (makes → ¬ s.Unposted signal p) := by
  constructor
  · intro hkeeps hmakes
    exact hkeeps.1 signal p (by rw [hmade, if_pos hmakes])
  · intro h
    refine ⟨fun signal' p' hsome => ?_,
      fun k p promise he hc => absurd hc (hdisposing k p promise he)⟩
    rw [hmade, Option.ite_none_right_eq_some] at hsome
    obtain ⟨hmakes, heq⟩ := hsome
    cases heq
    exact h hmakes

theorem keeps_initializeCall : s.Keeps (.initializeCall signal p) ↔
    (s.initializationGate = none → ¬ s.Unposted signal p) :=
  keeps_iff rfl nofun

theorem keeps_useCall : s.Keeps (.useCall signal p) ↔
    (s.initializationGate = none → ¬ s.Unposted signal p) :=
  keeps_iff rfl nofun

theorem keeps_disposeCall : s.Keeps (.disposeCall p) ↔ (s.worker ≠ none → ¬ s.Unposted none p) := by
  have hmade : s.made (.disposeCall p) = if s.worker ≠ none then some (none, p) else none := by
    rw [made, ite_not]
  exact keeps_iff hmade nofun

theorem keeps_opening {k : ℕ} {promise : RequestPromise} {own : Bool}
    (hc : s.calls[k]? = some (.opening promise own signal))
    (hresolved : s.outcome promise = some .resolved) :
    s.Keeps (.resume k p) ↔ ¬ s.Unposted signal p := by
  have hmade : s.made (.resume k p) = if s.outcome promise = some .resolved then
      some (signal, p) else none := by
    rw [made, hc]
  rw [keeps_iff hmade, forall_prop_of_true hresolved]
  rintro k' p' promise' ⟨⟩ hc'
  rw [hc] at hc'
  cases hc'

theorem exact_step (hexact : s.Exact) (h : clientStep client s e = some s') :
    s'.Exact ↔ s.Keeps e := by
  cases clientStep_effect h with
  | initializeCall signal p promise own s₁ hopens =>
    rw [keeps_initializeCall, ← exact_opens hexact hopens]
    exact ⟨fun h => h.congr rfl rfl, fun h => h.congr rfl rfl⟩
  | initializeThrown signal p _ hopens =>
    rw [keeps_initializeCall, ← exact_opens hexact hopens]
  | useCall signal p promise own s₁ hopens =>
    rw [keeps_useCall, ← exact_opens hexact hopens]
    exact ⟨fun h => h.congr rfl rfl, fun h => h.congr rfl rfl⟩
  | useThrown signal p _ hopens =>
    rw [keeps_useCall, ← exact_opens hexact hopens]
  | disposeIdle p hworker =>
    refine iff_of_true hexact (keeps_of_quiet ?_ nofun)
    rw [made, if_pos hworker]
  | disposeCall p worker hworker =>
    have hpost : (s.post worker .dispose none p.posted).Exact ↔ ¬ s.Unposted none p :=
      exact_requests hexact (Requests.current rfl worker hworker)
    have hsome : s.worker ≠ none := by
      rw [hworker]
      exact nofun
    rw [keeps_disposeCall, forall_prop_of_true hsome, ← hpost]
    exact ⟨fun h => h.congr rfl rfl, fun h => h.congr rfl rfl⟩
  | terminateCall
  | error worker hworker => exact iff_of_true hexact.close (keeps_of_quiet rfl nofun)
  | abort signal _ haborts =>
    refine iff_of_true ?_ (keeps_of_quiet rfl nofun)
    cases haborts with
    | again haborted => exact hexact
    | unheard hlistening => exact hexact.congr rfl rfl
    | hard hlistening hhard hfresh =>
      have hnext : Exact { s with aborted := signal :: s.aborted } := hexact.congr rfl rfl
      exact hnext.close
    | soft hhard =>
      obtain ⟨hpending, hoperations⟩ :=
        cancelAll_table { s with aborted := signal :: s.aborted } (s.listening signal)
      exact hexact.congr hpending hoperations
  | message worker id r _ hworker hreplies =>
    refine iff_of_true ?_ (keeps_of_quiet rfl nofun)
    cases hreplies with
    | ignored hretires => exact hexact
    | rejected hpending hretires => exact hexact.settle hpending .rejected
    | resolved hpending hretires => exact (hexact.settle hpending .resolved).congr rfl rfl
    | retired hpending hretires hempty =>
      exact (hexact.settle hpending .resolved).congr hempty.symm rfl
  | lateMessage worker id r hworker
  | lateError worker hworker => exact iff_of_true hexact (keeps_of_quiet rfl nofun)
  | finish k p c hc hopening hdisposing promise own =>
    obtain ⟨hpending, hoperations⟩ :=
      clearGate_table { s with calls := s.calls.eraseIdx k } promise own
    refine iff_of_true (hexact.congr hpending hoperations) (keeps_of_quiet ?_ ?_)
    · rw [made, hc]
      split
      · rename_i promise' own' signal heq
        cases heq
        rw [if_neg]
        rw [hopening _ _ _ rfl]
        exact nofun
      · rfl
    · rintro k' p' promise' ⟨⟩ hc'
      rw [hc] at hc'
      exact hdisposing promise' (Option.some.inj hc')
  | use k p promise promise' own signal s₁ hc hresolved hrequests =>
    have hexact' : Exact { s with calls := s.calls.eraseIdx k } := hexact.congr rfl rfl
    have hnext := exact_requests hexact' hrequests
    rw [keeps_opening hc hresolved]
    exact ⟨fun h => hnext.mp (h.congr rfl rfl), fun h => (hnext.mpr h).congr rfl rfl⟩
  | useAgainThrown k p promise own signal _ hc hresolved hrequests =>
    have hexact' : Exact { s with calls := s.calls.eraseIdx k } := hexact.congr rfl rfl
    have hnext := exact_requests hexact' hrequests
    rw [keeps_opening hc hresolved]
    exact hnext
  | disposed k p promise hc hsettled =>
    have hexact' : Exact { s with calls := s.calls.eraseIdx k } := hexact.congr rfl rfl
    rw [exact_drop hexact']
    constructor
    · intro hnil
      refine ⟨fun signal p' hsome => ?_, fun _ _ _ _ _ => hnil⟩
      rw [made, hc] at hsome
      cases hsome
    · intro hkeeps
      exact hkeeps.2 k p promise rfl hc

/-! ### Every run -/

theorem exact_initial : initial.Exact :=
  ⟨fun _ => iff_of_false not_mem_nil nofun, nofun⟩

/-- In every run of a client, all operations are settled as they should be in every state reached
exactly if each step posts its request and no disposal ends while others are pending. -/
theorem settles_throughout_iff (client : WorkerClient) {w : List ClientEvent} {s : ClientState}
    (h : run (clientStep client) initial w = some s) :
    Throughout (clientStep client) Settles initial w ↔
      Along (clientStep client) Keeps initial w := by
  have hinitial : initial.Sound client := sound_initial
  apply throughout_iff_along Settles (Sound client) (fun _ _ _ hs hstep => hs.step hstep) _ hinitial
    ((settles_iff hinitial).mpr exact_initial) h
  intro v e v' hs hsettles hstep
  rw [settles_iff (hs.step hstep)]
  exact exact_step hsettles.toExact hstep

def Dropped (s : ClientState) (id : ℕ) (op : ClientOperation) : Prop :=
  s.operations id = some op ∧ id ∉ s.pending

variable {op : ClientOperation}

theorem Dropped.congr (hdropped : s.Dropped id op)
    (hpending : s'.pending = s.pending) (hoperations : s'.operations = s.operations) :
    s'.Dropped id op := by
  unfold Dropped
  rw [hpending, hoperations]
  exact hdropped

theorem Dropped.post (hdropped : s.Dropped id op) (hs : s.Sound client)
    (worker : ℕ) (type : RequestType) (signal : Option ℕ) (posted : Bool) :
    (s.post worker type signal posted).Dropped id op := by
  obtain ⟨hop, hmissing⟩ := hdropped
  have hle := (hs.known id op hop).1
  refine ⟨post_operations_of_known hs hop, fun hid => ?_⟩
  rcases mem_append.mp hid with hid | hid
  · exact hmissing hid
  · have heq := mem_singleton.mp hid
    omega

theorem Dropped.requests (hdropped : s.Dropped id op) (hs : s.Sound client)
    (h : Requests s type signal p (promise, s₁)) : s₁.Dropped id op := by
  cases h with
  | refused haborted => exact hdropped.congr rfl rfl
  | thrown haborted hworker hcreated => exact hdropped
  | current haborted worker hworker => exact hdropped.post hs worker type signal p.posted
  | created haborted hworker hcreated =>
    have hnext : Dropped { s with worker := some s.workers, workers := s.workers + 1 } id op :=
      hdropped.congr rfl rfl
    exact hnext.post (hs.create hworker) s.workers type signal p.posted

theorem Dropped.opens (hdropped : s.Dropped id op) (hs : s.Sound client)
    (h : Opens client s signal p (result, s₁)) : s₁.Dropped id op := by
  cases h with
  | gate gate hgate => exact hdropped
  | thrown hgate s₁ hrequests => exact hdropped.requests hs hrequests
  | requested hgate promise s₁ hrequests => exact (hdropped.requests hs hrequests).congr rfl rfl

theorem Dropped.close (hdropped : s.Dropped id op) (error : Bool) :
    (s.close error).Dropped id op := by
  obtain ⟨hop, hmissing⟩ := hdropped
  refine ⟨?_, not_mem_nil⟩
  cases error with
  | true => exact (if_neg hmissing).trans hop
  | false => exact hop

theorem Dropped.settle {id j : ℕ} (hdropped : s.Dropped id op)
    (hj : j ∈ s.pending) (r : Settlement) : (s.settle j r).Dropped id op := by
  obtain ⟨hop, hmissing⟩ := hdropped
  have hne : id ≠ j := fun heq => hmissing (heq ▸ hj)
  refine ⟨(Function.update_of_ne hne _ _).trans hop, fun hid => ?_⟩
  exact hmissing (mem_filter.mp hid).1

/-- No step comes back to it. -/
theorem Dropped.step (hdropped : s.Dropped id op) (hs : s.Sound client) (h : clientStep client s e =
    some s') : s'.Dropped id op := by
  have herase : ∀ k, Dropped { s with calls := s.calls.eraseIdx k } id op :=
    fun k => hdropped.congr rfl rfl
  cases clientStep_effect h with
  | initializeCall signal p promise own s₁ hopens
  | useCall signal p promise own s₁ hopens => exact (hdropped.opens hs hopens).congr rfl rfl
  | initializeThrown signal p _ hopens
  | useThrown signal p _ hopens => exact hdropped.opens hs hopens
  | disposeIdle p hworker => exact hdropped
  | disposeCall p worker hworker =>
    exact (hdropped.post hs worker .dispose none p.posted).congr rfl rfl
  | terminateCall | error worker hworker => exact hdropped.close true
  | abort signal _ haborts =>
    have hnext : Dropped { s with aborted := signal :: s.aborted } id op := hdropped.congr rfl rfl
    cases haborts with
    | again haborted => exact hdropped
    | unheard hlistening => exact hnext
    | hard hlistening hhard hfresh => exact hnext.close true
    | soft hhard =>
      obtain ⟨hpending, hoperations⟩ :=
        cancelAll_table { s with aborted := signal :: s.aborted } (s.listening signal)
      exact hnext.congr hpending hoperations
  | message worker j r _ hworker hreplies =>
    cases hreplies with
    | ignored hretires => exact hdropped
    | rejected hpending hretires => exact hdropped.settle hpending .rejected
    | resolved hpending hretires => exact (hdropped.settle hpending .resolved).congr rfl rfl
    | retired hpending hretires hempty =>
      exact ((hdropped.settle hpending .resolved).close false).congr rfl rfl
  | lateMessage worker j r hworker => exact hdropped
  | lateError worker hworker => exact hdropped
  | finish k p c hc hopening hdisposing promise own =>
    obtain ⟨hpending, hoperations⟩ :=
      clearGate_table { s with calls := s.calls.eraseIdx k } promise own
    exact (herase k).congr hpending hoperations
  | use k p promise promise' own signal s₁ hc hresolved hrequests =>
    exact ((herase k).requests (hs.eraseCall k) hrequests).congr rfl rfl
  | useAgainThrown k p promise own signal _ hc hresolved hrequests =>
    exact (herase k).requests (hs.eraseCall k) hrequests
  | disposed k p promise hc hsettled => exact (herase k).close false

theorem Dropped.run (hdropped : s.Dropped id op) (hs : s.Sound client)
    {w : List ClientEvent} (h : Transition.run (clientStep client) s w = some s') :
    s'.operations id = some op :=
  ((reachable_of_run h).invariant (fun s => s.Sound client ∧ s.Dropped id op) ⟨hs, hdropped⟩
    (fun _ _ _ ⟨hs, hd⟩ _ hstep => ⟨hs.step hstep, hd.step hs hstep⟩)).2.1

def disposalAfterRun : List ClientEvent :=
  [.useCall none ⟨true, true⟩, .message 0 1 .initialized, .resume 0 ⟨true, true⟩,
    .message 0 2 (.runResult false), .resume 0 ⟨true, true⟩, .disposeCall ⟨true, true⟩,
    .message 0 3 .disposed, .resume 0 ⟨true, true⟩]

def disposalDuringRun : List ClientEvent :=
  [.useCall none ⟨true, true⟩, .message 0 1 .initialized, .resume 0 ⟨true, true⟩,
    .disposeCall ⟨true, true⟩, .message 0 3 .disposed, .resume 1 ⟨true, true⟩]

theorem settles_after_run : ∃ s, run (clientStep (.runner none none)) initial disposalAfterRun =
      some s ∧ s.worker = none ∧
    (Throughout (clientStep (.runner none none)) Settles initial disposalAfterRun ↔
      Along (clientStep (.runner none none)) Keeps initial disposalAfterRun) :=
  ⟨_, rfl, rfl, settles_throughout_iff (.runner none none) rfl⟩

theorem unsettled_after_disposal :
    ∃ s, run (clientStep (.runner none none)) initial disposalDuringRun = some s ∧
      s.worker = none ∧ s.pending = [] ∧ s.calls = [.running (.operation 2)] ∧ ¬ s.Settles ∧
      ∀ w s', run (clientStep (.runner none none)) s w = some s' →
        s'.operations 2 = some ⟨.run, 0, none, []⟩ := by
  have hrun : run (clientStep (.runner none none)) initial disposalDuringRun = some _ := rfl
  have hs := (reachable_of_run hrun).invariant (Sound (.runner none none)) sound_initial
    (fun _ _ _ hs _ hstep => hs.step hstep)
  refine ⟨_, hrun, rfl, rfl, rfl, fun hsettles => ?_, fun w s' h => ?_⟩
  · exact (hsettles.closed rfl).1 2 ⟨.run, 0, none, []⟩ rfl rfl
  · exact Dropped.run ⟨rfl, not_mem_nil⟩ hs h

end ClientState

end TraceJvm
