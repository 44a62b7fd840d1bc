import TraceJvm.WorkerClient

/-! What holds in every state of a client: the pending operations and the gate belong to the current
instance of the worker, and only a response resolves an operation. -/
namespace TraceJvm

open Transition List

/-- The operation has been posted to the instance, and then resolved by a response of it. -/
def Answered (log : List WorkerMessage) (worker id : ℕ) (type : RequestType) : Prop :=
  ∃ later earlier, log = later ++ .received worker id :: earlier ∧
    .posted worker id type ∈ earlier

theorem Answered.cons {log : List WorkerMessage} {worker id : ℕ} {type : RequestType}
    (h : Answered log worker id type) (m : WorkerMessage) :
    Answered (m :: log) worker id type := by
  obtain ⟨later, earlier, rfl, hposted⟩ := h
  exact ⟨m :: later, earlier, rfl, hposted⟩

def ClientCall.awaited (client : WorkerClient) : ClientCall → RequestType
  | .initializing _ _ => client.initializeType
  | .opening _ _ _ => client.initializeType
  | .running _ => client.useType
  | .disposing _ => .dispose

namespace ClientState

/-- The promise is of an operation of this type on the current instance, unless it was refused. -/
def Holds (s : ClientState) (promise : RequestPromise) (type : RequestType) : Prop :=
  ∀ id, promise = .operation id →
    ∃ op, s.operations id = some op ∧ op.type = type ∧ s.worker = some op.worker

structure Sound (client : WorkerClient) (s : ClientState) : Prop where
  current : ∀ w, s.worker = some w → w < s.workers
  known : ∀ id op, s.operations id = some op → id ≤ s.nextId ∧ op.worker < s.workers
  pending : ∀ id ∈ s.pending, ∃ op, s.operations id = some op ∧ s.worker = some op.worker
  gate : ∀ promise, s.initializationGate = some promise → s.Holds promise client.initializeType
  calls : ∀ c ∈ s.calls, ∀ id, c.promise = .operation id →
    ∃ op, s.operations id = some op ∧ op.type = c.awaited client
  log : ∀ m ∈ s.log, m.worker < s.workers
  posted : ∀ id op, s.operations id = some op → op.settlements = [] →
    .posted op.worker id op.type ∈ s.log
  answered : ∀ id op, s.operations id = some op → op.settlements.head? = some .resolved →
    Answered s.log op.worker id op.type

variable {client : WorkerClient} {s s' s₁ : ClientState} {type : RequestType} {signal : Option ℕ}
  {p : Posting} {worker : ℕ}

theorem sound_initial : initial.Sound client :=
  ⟨nofun, nofun, nofun, nofun, nofun, nofun, nofun, nofun⟩

theorem Sound.pending_eq_nil (hs : s.Sound client) (hworker : s.worker = none) :
    s.pending = [] := by
  apply eq_nil_iff_forall_not_mem.mpr
  intro id hid
  obtain ⟨op, -, hop⟩ := hs.pending id hid
  rw [hworker] at hop
  cases hop

/-! ### A request -/

inductive Requests (s : ClientState) (type : RequestType) (signal : Option ℕ) (p : Posting) :
    Option RequestPromise × ClientState → Prop where
  | refused (haborted : s.isAborted signal = true) :
      Requests s type signal p
        (some (.refused s.refusals), { s with refusals := s.refusals + 1 })
  | thrown (haborted : s.isAborted signal = false) (hworker : s.worker = none)
      (hcreated : p.created = false) : Requests s type signal p (none, s)
  | current (haborted : s.isAborted signal = false) (worker : ℕ)
      (hworker : s.worker = some worker) :
      Requests s type signal p
        (some (.operation (s.nextId + 1)), s.post worker type signal p.posted)
  | created (haborted : s.isAborted signal = false) (hworker : s.worker = none)
      (hcreated : p.created = true) :
      Requests s type signal p (some (.operation (s.nextId + 1)),
        post { s with worker := some s.workers, workers := s.workers + 1 } s.workers type signal
          p.posted)

theorem request_cases (s : ClientState) (type : RequestType) (signal : Option ℕ) (p : Posting) :
    Requests s type signal p (s.request type signal p) := by
  unfold request
  split
  · rename_i haborted
    exact .refused haborted
  · rename_i haborted
    have haborted : s.isAborted signal = false := Bool.eq_false_iff.mpr haborted
    unfold ensureWorker
    cases hworker : s.worker with
    | some worker => exact .current haborted worker hworker
    | none =>
      cases hcreated : p.created with
      | true => exact .created haborted hworker hcreated
      | false => exact .thrown haborted hworker hcreated

variable {id : ℕ}

variable {posted : Bool}

theorem post_operations_of_ne (hid : id ≠ s.nextId + 1) :
    (s.post worker type signal posted).operations id = s.operations id :=
  Function.update_of_ne hid _ _

theorem post_operations_self (s : ClientState) (worker : ℕ) (type : RequestType)
    (signal : Option ℕ) (posted : Bool) :
    (s.post worker type signal posted).operations (s.nextId + 1) =
      some ⟨type, worker, signal, if posted then [] else [.rejected]⟩ :=
  Function.update_self _ _ _

variable {op : ClientOperation}

theorem post_operations_of_known (hs : s.Sound client) (hop : s.operations id = some op) :
    (s.post worker type signal posted).operations id = some op := by
  have hle := (hs.known id op hop).1
  rw [post_operations_of_ne (by omega), hop]

theorem post_log {m : WorkerMessage} (hm : m ∈ s.log) :
    m ∈ (s.post worker type signal posted).log := by
  cases posted with
  | true => exact mem_cons_of_mem _ hm
  | false => exact hm

theorem Sound.post (hs : s.Sound client) (hworker : s.worker = some worker) (type : RequestType)
    (signal : Option ℕ) (posted : Bool) : (s.post worker type signal posted).Sound client := by
  refine ⟨hs.current, fun id op hop => ?_, fun id hid => ?_, fun promise hgate id hid => ?_,
    fun c hc id hid => ?_, fun m hm => ?_, fun id op hop hsettled => ?_,
    fun id op hop hsettled => ?_⟩
  · by_cases hid : id = s.nextId + 1
    · rw [hid, post_operations_self] at hop
      cases hop
      exact ⟨Nat.le_of_eq hid, hs.current worker hworker⟩
    · rw [post_operations_of_ne hid] at hop
      obtain ⟨hle, hlt⟩ := hs.known id op hop
      exact ⟨Nat.le_succ_of_le hle, hlt⟩
  · rcases mem_append.mp hid with hid | hid
    · obtain ⟨op, hop, hcurrent⟩ := hs.pending id hid
      exact ⟨op, post_operations_of_known hs hop, hcurrent⟩
    · rw [mem_singleton.mp hid]
      exact ⟨_, post_operations_self s worker type signal posted, hworker⟩
  · obtain ⟨op, hop, htype, hcurrent⟩ := hs.gate promise hgate id hid
    exact ⟨op, post_operations_of_known hs hop, htype, hcurrent⟩
  · obtain ⟨op, hop, htype⟩ := hs.calls c hc id hid
    exact ⟨op, post_operations_of_known hs hop, htype⟩
  · cases posted with
    | false => exact hs.log m hm
    | true =>
      rcases mem_cons.mp hm with rfl | hm
      · exact hs.current worker hworker
      · exact hs.log m hm
  · by_cases hid : id = s.nextId + 1
    · rw [hid, post_operations_self] at hop
      cases hop
      cases posted with
      | true =>
        rw [hid]
        exact mem_cons_self
      | false => cases hsettled
    · rw [post_operations_of_ne hid] at hop
      exact post_log (hs.posted id op hop hsettled)
  · by_cases hid : id = s.nextId + 1
    · rw [hid, post_operations_self] at hop
      cases hop
      cases posted <;> cases hsettled
    · rw [post_operations_of_ne hid] at hop
      have hanswered := hs.answered id op hop hsettled
      cases posted with
      | true => exact hanswered.cons _
      | false => exact hanswered

theorem Sound.create (hs : s.Sound client) (hworker : s.worker = none) :
    Sound client { s with worker := some s.workers, workers := s.workers + 1 } := by
  refine ⟨fun w hw => ?_, fun id op hop => ?_, fun id hid => ?_, fun promise hgate id hid => ?_,
    hs.calls, fun m hm => ?_, hs.posted, hs.answered⟩
  · cases hw
    exact Nat.lt_succ_self _
  · obtain ⟨hle, hlt⟩ := hs.known id op hop
    exact ⟨hle, Nat.lt_succ_of_lt hlt⟩
  · have hid : id ∈ s.pending := hid
    rw [hs.pending_eq_nil hworker] at hid
    cases hid
  · obtain ⟨op, -, -, hop⟩ := hs.gate promise hgate id hid
    rw [hworker] at hop
    cases hop
  · exact Nat.lt_succ_of_lt (hs.log m hm)

/-- The state after a request, and its promise. -/
theorem Sound.requests (hs : s.Sound client) {promise : Option RequestPromise}
    (h : Requests s type signal p (promise, s₁)) :
    s₁.Sound client ∧ ∀ q, promise = some q → s₁.Holds q type := by
  cases h with
  | refused haborted =>
    refine ⟨{ hs with }, ?_⟩
    rintro _ ⟨⟩
    exact nofun
  | thrown haborted hworker hcreated => exact ⟨hs, nofun⟩
  | current haborted worker hworker =>
    refine ⟨hs.post hworker type signal p.posted, ?_⟩
    rintro _ ⟨⟩ _ ⟨⟩
    exact ⟨_, post_operations_self s worker type signal p.posted, rfl, hworker⟩
  | created haborted hworker hcreated =>
    refine ⟨(hs.create hworker).post rfl type signal p.posted, ?_⟩
    rintro _ ⟨⟩ _ ⟨⟩
    exact ⟨_, post_operations_self _ s.workers type signal p.posted, rfl, rfl⟩

theorem Sound.setGate (hs : s.Sound client) {promise : RequestPromise}
    (hpromise : s.Holds promise client.initializeType) :
    Sound client { s with initializationGate := some promise } := by
  refine { hs with gate := fun q hq => ?_ }
  cases hq
  exact hpromise

theorem Sound.await (hs : s.Sound client) {c : ClientCall}
    (hc : s.Holds c.promise (c.awaited client)) : (s.await c).Sound client := by
  refine { hs with calls := fun d hd id hid => ?_ }
  rcases mem_append.mp hd with hd | hd
  · exact hs.calls d hd id hid
  · rw [mem_singleton.mp hd] at hid ⊢
    obtain ⟨op, hop, htype, -⟩ := hc id hid
    exact ⟨op, hop, htype⟩

theorem Sound.eraseCall (hs : s.Sound client) (k : ℕ) :
    Sound client { s with calls := s.calls.eraseIdx k } :=
  { hs with calls := fun c hc => hs.calls c (mem_of_mem_eraseIdx hc) }

theorem Sound.clearGate (hs : s.Sound client) (promise : RequestPromise) (own : Bool) :
    (s.clearGate promise own).Sound client := by
  unfold ClientState.clearGate
  split
  · exact { hs with gate := nofun }
  · exact hs

/-- The ways through `initializePromise`. -/
inductive Opens (client : WorkerClient) (s : ClientState) (signal : Option ℕ) (p : Posting) :
    Option (RequestPromise × Bool) × ClientState → Prop where
  | gate (gate : RequestPromise) (hgate : s.initializationGate = some gate) :
      Opens client s signal p (some (gate, false), s)
  | thrown (hgate : s.initializationGate = none) (s₁ : ClientState)
      (hrequests : Requests s client.initializeType signal p (none, s₁)) :
      Opens client s signal p (none, s₁)
  | requested (hgate : s.initializationGate = none) (promise : RequestPromise) (s₁ : ClientState)
      (hrequests : Requests s client.initializeType signal p (some promise, s₁)) :
      Opens client s signal p (some (promise, true),
        { s₁ with initializationGate := some promise })

theorem initializePromise_cases (client : WorkerClient) (s : ClientState) (signal : Option ℕ)
    (p : Posting) : Opens client s signal p (s.initializePromise client signal p) := by
  have hrequests := request_cases s client.initializeType signal p
  unfold initializePromise
  cases hgate : s.initializationGate with
  | some gate => exact .gate gate hgate
  | none =>
    dsimp only
    split
    · rename_i promise s₁ heq
      rw [heq] at hrequests
      exact .requested hgate promise s₁ hrequests
    · rename_i s₁ heq
      rw [heq] at hrequests
      exact .thrown hgate s₁ hrequests

theorem Sound.opens (hs : s.Sound client) {result : Option (RequestPromise × Bool)}
    (h : Opens client s signal p (result, s₁)) :
    s₁.Sound client ∧
      ∀ promise own, result = some (promise, own) → s₁.Holds promise client.initializeType := by
  cases h with
  | gate gate hgate =>
    refine ⟨hs, ?_⟩
    rintro _ _ ⟨⟩
    exact hs.gate gate hgate
  | thrown hgate s₁ hrequests => exact ⟨(hs.requests hrequests).1, nofun⟩
  | requested hgate promise s₁ hrequests =>
    obtain ⟨hs₁, hholds⟩ := hs.requests hrequests
    refine ⟨hs₁.setGate (hholds promise rfl), ?_⟩
    rintro _ _ ⟨⟩
    exact hholds promise rfl

/-! ### Settling -/

def Settled (r : Settlement) (before after : ℕ → Option ClientOperation) : Prop :=
  ∀ id, after id = before id ∨ after id = (before id).map (·.settle r)

variable {after before : ℕ → Option ClientOperation}

theorem Settled.forth {r : Settlement} (h : Settled r before after) (hop : before id = some op) :
    ∃ op', after id = some op' ∧ op'.type = op.type ∧ op'.worker = op.worker := by
  rcases h id with hsame | hsettled
  · exact ⟨op, hsame.trans hop, rfl, rfl⟩
  · rw [hop] at hsettled
    exact ⟨op.settle r, hsettled, rfl, rfl⟩

theorem Settled.back {r : Settlement}
    (h : Settled r before after) {op' : ClientOperation} (hop' : after id = some op') :
    ∃ op, before id = some op ∧ op'.type = op.type ∧ op'.worker = op.worker ∧
      (op' = op ∨ after id = (before id).map (·.settle r) ∧ op' = op.settle r) := by
  rcases h id with hsame | hsettled
  · exact ⟨op', hsame.symm.trans hop', rfl, rfl, .inl rfl⟩
  · rw [hsettled] at hop'
    obtain ⟨op, hop, rfl⟩ := Option.map_eq_some_iff.mp hop'
    exact ⟨op, hop, rfl, rfl, .inr ⟨hsettled, rfl⟩⟩

theorem settle_ne_nil (op : ClientOperation) (r : Settlement) : (op.settle r).settlements ≠ [] := by
  intro hnil
  cases append_eq_nil_iff.mp hnil with
  | intro _ h => cases h

theorem head_settle_rejected (h : (op.settle .rejected).settlements.head? = some .resolved) :
    op.settlements.head? = some .resolved := by
  unfold ClientOperation.settle at h
  cases hsettlements : op.settlements with
  | nil =>
    rw [hsettlements] at h
    cases h
  | cons first rest =>
    rw [hsettlements] at h
    exact h

theorem settled_rejectAll (operations : ℕ → Option ClientOperation) (pending : List ℕ) :
    Settled .rejected operations (rejectAll operations pending) := by
  intro id
  unfold rejectAll
  split
  · exact .inr rfl
  · exact .inl rfl

theorem settled_update (operations : ℕ → Option ClientOperation) (id : ℕ) (r : Settlement) :
    Settled r operations (Function.update operations id ((operations id).map (·.settle r))) := by
  intro j
  by_cases hj : j = id
  · subst hj
    exact .inr (Function.update_self _ _ _)
  · exact .inl (Function.update_of_ne hj _ _)

theorem Sound.close (hs : s.Sound client) (error : Bool) : (s.close error).Sound client := by
  have hsettled : Settled .rejected s.operations (s.close error).operations := by
    cases error with
    | true => exact settled_rejectAll s.operations s.pending
    | false => exact fun id => .inl rfl
  refine ⟨nofun, fun id op' hop' => ?_, nofun, nofun, fun c hc id hid => ?_, hs.log,
    fun id op' hop' hnil => ?_, fun id op' hop' hhead => ?_⟩
  · obtain ⟨op, hop, -, hworker, -⟩ := hsettled.back hop'
    rw [hworker]
    exact hs.known id op hop
  · obtain ⟨op, hop, htype⟩ := hs.calls c hc id hid
    obtain ⟨op', hop', htype', -⟩ := hsettled.forth hop
    exact ⟨op', hop', htype'.trans htype⟩
  · obtain ⟨op, hop, -, -, rfl | ⟨-, rfl⟩⟩ := hsettled.back hop'
    · exact hs.posted id op' hop hnil
    · exact absurd hnil (settle_ne_nil op .rejected)
  · obtain ⟨op, hop, -, -, rfl | ⟨-, rfl⟩⟩ := hsettled.back hop'
    · exact hs.answered id op' hop hhead
    · exact hs.answered id op hop (head_settle_rejected hhead)

/-- A pending operation is settled by a response. -/
theorem Sound.settle (hs : s.Sound client) (id : ℕ) (r : Settlement) {log : List WorkerMessage}
    (hgrows : s.log ⊆ log) (hlog : ∀ m ∈ log, m.worker < s.workers)
    (hkeeps : ∀ w j type, Answered s.log w j type → Answered log w j type)
    (hresolved : r = .resolved → ∀ op, s.operations id = some op → op.settlements = [] →
      Answered log op.worker id op.type) :
    Sound client { s.settle id r with log := log } := by
  have hsettled : Settled r s.operations (s.settle id r).operations :=
    settled_update s.operations id r
  refine ⟨hs.current, fun j op' hop' => ?_, fun j hj => ?_, fun promise hgate j hj => ?_,
    fun c hc j hj => ?_, hlog, fun j op' hop' hnil => ?_, fun j op' hop' hhead => ?_⟩
  · obtain ⟨op, hop, -, hworker, -⟩ := hsettled.back hop'
    rw [hworker]
    exact hs.known j op hop
  · obtain ⟨op, hop, hcurrent⟩ := hs.pending j (mem_filter.mp hj).1
    obtain ⟨op', hop', -, hworker⟩ := hsettled.forth hop
    exact ⟨op', hop', by rw [hworker]; exact hcurrent⟩
  · obtain ⟨op, hop, htype, hcurrent⟩ := hs.gate promise hgate j hj
    obtain ⟨op', hop', htype', hworker⟩ := hsettled.forth hop
    exact ⟨op', hop', htype'.trans htype, by rw [hworker]; exact hcurrent⟩
  · obtain ⟨op, hop, htype⟩ := hs.calls c hc j hj
    obtain ⟨op', hop', htype', -⟩ := hsettled.forth hop
    exact ⟨op', hop', htype'.trans htype⟩
  · obtain ⟨op, hop, -, -, rfl | ⟨-, rfl⟩⟩ := hsettled.back hop'
    · exact hgrows (hs.posted j op' hop hnil)
    · exact absurd hnil (settle_ne_nil op r)
  · by_cases hj : j = id
    · subst hj
      obtain ⟨op, hop, -, -, rfl | ⟨-, rfl⟩⟩ := hsettled.back hop'
      · exact hkeeps _ _ _ (hs.answered j op' hop hhead)
      · cases hsettlements : op.settlements with
        | nil =>
          unfold ClientOperation.settle at hhead
          rw [hsettlements] at hhead
          exact hresolved (Option.some.inj hhead) op hop hsettlements
        | cons first rest =>
          unfold ClientOperation.settle at hhead
          rw [hsettlements] at hhead
          apply hkeeps
          apply hs.answered j op hop
          rw [hsettlements]
          exact hhead
    · have hsame : (s.settle id r).operations j = s.operations j := Function.update_of_ne hj _ _
      exact hkeeps _ _ _ (hs.answered j op' (hsame.symm.trans hop') hhead)

inductive Replies (client : WorkerClient) (s : ClientState) (worker id : ℕ) (r : WorkerResponse) :
    ClientState → Prop where
  | ignored (hretires : client.retires r = true → id ∉ s.pending) : Replies client s worker id r s
  | rejected (hpending : id ∈ s.pending) (hretires : client.retires r = false) :
      Replies client s worker id r (s.settle id .rejected)
  | resolved (hpending : id ∈ s.pending)
      (hretires : client.retires r = true → (s.settle id .resolved).pending ≠ []) :
      Replies client s worker id r
        { s.settle id .resolved with log := .received worker id :: s.log }
  | retired (hpending : id ∈ s.pending) (hretires : client.retires r = true)
      (hempty : (s.settle id .resolved).pending = []) :
      Replies client s worker id r
        (ClientState.close { s.settle id .resolved with log := .received worker id :: s.log } false)

theorem servesHostCall_of_retires {r : WorkerResponse} (h : client.retires r = true) :
    client.servesHostCall r = false := by
  cases client with
  | compiler => rfl
  | runner hardAbort retireAutomatically =>
    cases r with
    | hostCall => cases h
    | hostCallAsync => cases h
    | _ => rfl

theorem onMessage_cases (client : WorkerClient) (s : ClientState) (worker id : ℕ)
    (r : WorkerResponse) : Replies client s worker id r (s.onMessage client worker id r) := by
  unfold onMessage
  split
  · rename_i hignored
    refine .ignored fun hretires => ?_
    rcases hignored with hhost | hmissing | rfl
    · rw [servesHostCall_of_retires hretires] at hhost
      cases hhost
    · exact hmissing
    · cases client <;> cases hretires
  · rename_i hnot
    have hpending : id ∈ s.pending := by
      by_contra hmissing
      exact hnot (.inr (.inl hmissing))
    split
    · rename_i herror
      subst herror
      exact .rejected hpending (by cases client <;> rfl)
    · dsimp only
      split
      · rename_i hretires
        exact .retired hpending hretires.1 hretires.2
      · rename_i hretires
        exact .resolved hpending fun hr hempty => hretires ⟨hr, hempty⟩

theorem Sound.reply (hs : s.Sound client) (hworker : s.worker = some worker)
    (hpending : id ∈ s.pending) :
    Sound client { s.settle id .resolved with log := .received worker id :: s.log } := by
  apply hs.settle id .resolved (subset_cons_self _ _)
  · intro m hm
    rcases mem_cons.mp hm with rfl | hm
    · exact hs.current worker hworker
    · exact hs.log m hm
  · intro w j type hanswered
    exact hanswered.cons _
  · intro _ op hop hnil
    obtain ⟨op', hop', hcurrent⟩ := hs.pending id hpending
    obtain rfl : op = op' := Option.some.inj (hop.symm.trans hop')
    obtain rfl : op.worker = worker := Option.some.inj (hcurrent.symm.trans hworker)
    exact ⟨[], s.log, rfl, hs.posted id op hop hnil⟩

theorem Sound.replies (hs : s.Sound client) {r : WorkerResponse}
    (hworker : s.worker = some worker) (h : Replies client s worker id r s') : s'.Sound client := by
  cases h with
  | ignored hretires => exact hs
  | rejected hpending hretires =>
    exact hs.settle id .rejected (fun m hm => hm) hs.log (fun _ _ _ h => h) nofun
  | resolved hpending hretires => exact hs.reply hworker hpending
  | retired hpending hretires hempty => exact (hs.reply hworker hpending).close false

/-! ### Every step -/

theorem Sound.cancel (hs : s.Sound client) (targetId : ℕ) : (s.cancel targetId).Sound client := by
  unfold ClientState.cancel
  split
  · rename_i worker hworker
    refine ⟨hs.current, fun id op hop => ?_, hs.pending, hs.gate, hs.calls, fun m hm => ?_,
      fun id op hop hnil => mem_cons_of_mem _ (hs.posted id op hop hnil),
      fun id op hop hhead => (hs.answered id op hop hhead).cons _⟩
    · obtain ⟨hle, hlt⟩ := hs.known id op hop
      exact ⟨Nat.le_succ_of_le hle, hlt⟩
    · rcases mem_cons.mp hm with rfl | hm
      · exact hs.current worker hworker
      · exact hs.log m hm
  · exact hs

inductive Aborts (client : WorkerClient) (s : ClientState) (signal : ℕ) : ClientState → Prop where
  | again (haborted : signal ∈ s.aborted) : Aborts client s signal s
  | unheard (hlistening : s.listening signal = []) :
      Aborts client s signal { s with aborted := signal :: s.aborted }
  | hard (hlistening : s.listening signal ≠ []) (hhard : client.hardAbort = true)
      (hfresh : signal ∉ s.aborted) :
      Aborts client s signal (ClientState.close { s with aborted := signal :: s.aborted } true)
  | soft (hhard : client.hardAbort = false) :
      Aborts client s signal
        ((s.listening signal).foldl ClientState.cancel { s with aborted := signal :: s.aborted })

theorem onAbort_cases (client : WorkerClient) (s : ClientState) (signal : ℕ) :
    Aborts client s signal (s.onAbort client signal) := by
  unfold onAbort
  split
  · rename_i haborted
    exact .again haborted
  · rename_i hfresh
    dsimp only
    split
    · rename_i hlistening
      exact .unheard hlistening
    · rename_i hlistening
      split
      · rename_i hhard
        exact .hard hlistening hhard hfresh
      · rename_i hhard
        exact .soft (Bool.eq_false_iff.mpr hhard)

theorem Sound.abort (hs : s.Sound client) (signal : ℕ) :
    Sound client { s with aborted := signal :: s.aborted } :=
  { hs with }

theorem Sound.cancelAll (hs : s.Sound client) (ids : List ℕ) :
    (ids.foldl ClientState.cancel s).Sound client := by
  induction ids generalizing s with
  | nil => exact hs
  | cons id ids ih => exact ih (hs.cancel id)

theorem Sound.aborts (hs : s.Sound client) {signal : ℕ} (h : Aborts client s signal s') :
    s'.Sound client := by
  cases h with
  | again haborted => exact hs
  | unheard hlistening => exact hs.abort signal
  | hard hlistening hhard hfresh => exact (hs.abort signal).close true
  | soft hhard => exact (hs.abort signal).cancelAll _

inductive ClientEffect (client : WorkerClient) (s : ClientState) :
    ClientEvent → ClientState → Prop where
  | initializeCall (signal : Option ℕ) (p : Posting) (promise : RequestPromise) (own : Bool)
      (s₁ : ClientState) (hopens : Opens client s signal p (some (promise, own), s₁)) :
      ClientEffect client s (.initializeCall signal p) (s₁.await (.initializing promise own))
  | initializeThrown (signal : Option ℕ) (p : Posting) (s₁ : ClientState)
      (hopens : Opens client s signal p (none, s₁)) :
      ClientEffect client s (.initializeCall signal p) s₁
  | useCall (signal : Option ℕ) (p : Posting) (promise : RequestPromise) (own : Bool)
      (s₁ : ClientState) (hopens : Opens client s signal p (some (promise, own), s₁)) :
      ClientEffect client s (.useCall signal p) (s₁.await (.opening promise own signal))
  | useThrown (signal : Option ℕ) (p : Posting) (s₁ : ClientState)
      (hopens : Opens client s signal p (none, s₁)) :
      ClientEffect client s (.useCall signal p) s₁
  | disposeIdle (p : Posting) (hworker : s.worker = none) : ClientEffect client s (.disposeCall p) s
  | disposeCall (p : Posting) (worker : ℕ) (hworker : s.worker = some worker) :
      ClientEffect client s (.disposeCall p)
        ((s.post worker .dispose none p.posted).await (.disposing (.operation (s.nextId + 1))))
  | terminateCall : ClientEffect client s .terminateCall (s.close true)
  | abort (signal : ℕ) (s₁ : ClientState) (haborts : Aborts client s signal s₁) :
      ClientEffect client s (.abort signal) s₁
  | message (worker id : ℕ) (r : WorkerResponse) (s₁ : ClientState)
      (hworker : s.worker = some worker) (hreplies : Replies client s worker id r s₁) :
      ClientEffect client s (.message worker id r) s₁
  | lateMessage (worker id : ℕ) (r : WorkerResponse) (hworker : s.worker ≠ some worker) :
      ClientEffect client s (.message worker id r) s
  | error (worker : ℕ) (hworker : s.worker = some worker) :
      ClientEffect client s (.error worker) (s.close true)
  | lateError (worker : ℕ) (hworker : s.worker ≠ some worker) :
      ClientEffect client s (.error worker) s
  | finish (k : ℕ) (p : Posting) (c : ClientCall) (hc : s.calls[k]? = some c)
      (hopening : ∀ promise own signal, c = .opening promise own signal →
        s.outcome promise = some .rejected)
      (hdisposing : ∀ promise, c ≠ .disposing promise) (promise : RequestPromise) (own : Bool) :
      ClientEffect client s (.resume k p)
        (ClientState.clearGate { s with calls := s.calls.eraseIdx k } promise own)
  | use (k : ℕ) (p : Posting) (promise promise' : RequestPromise) (own : Bool)
      (signal : Option ℕ) (s₁ : ClientState) (hc : s.calls[k]? = some (.opening promise own signal))
      (hresolved : s.outcome promise = some .resolved)
      (hrequests : Requests { s with calls := s.calls.eraseIdx k } client.useType signal p
        (some promise', s₁)) :
      ClientEffect client s (.resume k p) (s₁.await (.running promise'))
  | useAgainThrown (k : ℕ) (p : Posting) (promise : RequestPromise) (own : Bool)
      (signal : Option ℕ) (s₁ : ClientState) (hc : s.calls[k]? = some (.opening promise own signal))
      (hresolved : s.outcome promise = some .resolved)
      (hrequests : Requests { s with calls := s.calls.eraseIdx k } client.useType signal p
        (none, s₁)) :
      ClientEffect client s (.resume k p) s₁
  | disposed (k : ℕ) (p : Posting) (promise : RequestPromise)
      (hc : s.calls[k]? = some (.disposing promise)) (hsettled : s.outcome promise ≠ none) :
      ClientEffect client s (.resume k p)
        (ClientState.close { s with calls := s.calls.eraseIdx k } false)

theorem clientStep_effect {e : ClientEvent} (h : clientStep client s e = some s') :
    ClientEffect client s e s' := by
  cases e with
  | initializeCall signal p =>
    have hopens := initializePromise_cases client s signal p
    rw [clientStep] at h
    split at h
    · rename_i promise own s₁ heq
      rw [heq] at hopens
      cases h
      exact .initializeCall signal p promise own s₁ hopens
    · rename_i s₁ heq
      rw [heq] at hopens
      cases h
      exact .initializeThrown signal p s' hopens
  | useCall signal p =>
    have hopens := initializePromise_cases client s signal p
    rw [clientStep] at h
    split at h
    · rename_i promise own s₁ heq
      rw [heq] at hopens
      cases h
      exact .useCall signal p promise own s₁ hopens
    · rename_i s₁ heq
      rw [heq] at hopens
      cases h
      exact .useThrown signal p s' hopens
  | disposeCall p =>
    rw [clientStep] at h
    cases hworker : s.worker with
    | none =>
      rw [if_pos hworker] at h
      cases h
      exact .disposeIdle p hworker
    | some worker =>
      rw [if_neg (by rw [hworker]; exact nofun), request, if_neg (by exact nofun), ensureWorker,
        hworker] at h
      cases h
      exact .disposeCall p worker hworker
  | terminateCall =>
    cases h
    exact .terminateCall
  | abort signal =>
    cases h
    exact .abort signal _ (onAbort_cases client s signal)
  | message worker id r =>
    rw [clientStep] at h
    split at h <;> rename_i hworker <;> cases h
    · exact .message worker id r _ hworker (onMessage_cases client s worker id r)
    · exact .lateMessage worker id r hworker
  | error worker =>
    rw [clientStep] at h
    split at h <;> rename_i hworker <;> cases h
    · exact .error worker hworker
    · exact .lateError worker hworker
  | resume k p =>
    obtain ⟨c, hc, hresume⟩ := Option.bind_eq_some_iff.mp h
    obtain ⟨r, hr, rfl⟩ := Option.map_eq_some_iff.mp hresume
    have hdone : ∀ promise : RequestPromise, { s with calls := s.calls.eraseIdx k } =
        ClientState.clearGate { s with calls := s.calls.eraseIdx k } promise false := by
      intro promise
      rw [clearGate, if_neg (by rintro ⟨h, -⟩; cases h)]
    cases c with
    | initializing promise own =>
      cases r with
      | resolved =>
        rw [ClientState.resume, hdone promise]
        exact .finish k p _ hc nofun nofun promise false
      | rejected => exact .finish k p _ hc nofun nofun promise own
    | opening promise own signal =>
      cases r with
      | resolved =>
        have hrequests :=
          request_cases { s with calls := s.calls.eraseIdx k } client.useType signal p
        rw [ClientState.resume]
        split
        · rename_i promise' s₁ heq
          rw [heq] at hrequests
          exact .use k p promise promise' own signal s₁ hc hr hrequests
        · rename_i s₁ heq
          rw [heq] at hrequests
          exact .useAgainThrown k p promise own signal s₁ hc hr hrequests
      | rejected =>
        refine .finish k p _ hc ?_ nofun promise own
        rintro _ _ _ ⟨⟩
        exact hr
    | running promise =>
      rw [ClientState.resume, hdone promise]
      exact .finish k p _ hc nofun nofun promise false
    | disposing promise =>
      refine .disposed k p promise hc ?_
      rw [show s.outcome promise = some r from hr]
      exact nofun

theorem Sound.step (hs : s.Sound client) {e : ClientEvent} (h : clientStep client s e = some s') :
    s'.Sound client := by
  cases clientStep_effect h with
  | initializeCall signal p promise own s₁ hopens | useCall signal p promise own s₁ hopens =>
    obtain ⟨hs₁, hholds⟩ := hs.opens hopens
    exact hs₁.await (hholds promise own rfl)
  | initializeThrown signal p _ hopens | useThrown signal p _ hopens => exact (hs.opens hopens).1
  | disposeIdle p hworker => exact hs
  | disposeCall p worker hworker =>
    apply (hs.post hworker .dispose none p.posted).await
    rintro id ⟨⟩
    exact ⟨_, post_operations_self s worker .dispose none p.posted, rfl, hworker⟩
  | terminateCall => exact hs.close true
  | abort signal _ haborts => exact hs.aborts haborts
  | message worker id r _ hworker hreplies => exact hs.replies hworker hreplies
  | lateMessage worker id r hworker => exact hs
  | error worker hworker => exact hs.close true
  | lateError worker hworker => exact hs
  | finish k p c hc hopening hdisposing promise own => exact (hs.eraseCall k).clearGate promise own
  | use k p promise promise' own signal s₁ hc hresolved hrequests =>
    obtain ⟨hs₁, hholds⟩ := (hs.eraseCall k).requests hrequests
    exact hs₁.await (hholds promise' rfl)
  | useAgainThrown k p promise own signal _ hc hresolved hrequests =>
    exact ((hs.eraseCall k).requests hrequests).1
  | disposed k p promise hc hsettled => exact (hs.eraseCall k).close false

end ClientState

end TraceJvm
