import TraceJvm.WorkerInvariant

/-! Exactly when every `run` and `compile` reaches an instance that has been initialized: no step
closes the worker while a call, whose initialization has succeeded, has not gone on yet. -/
namespace TraceJvm

open Transition List Option

def InitializedOn (client : WorkerClient) (log : List WorkerMessage) (worker : ℕ) : Prop :=
  ∃ id, Answered log worker id client.initializeType

/-- Each message to run or compile follows an initialization of the same instance. -/
def Preceded (client : WorkerClient) (log : List WorkerMessage) : Prop :=
  ∀ later earlier worker id, log = later ++ .posted worker id client.useType :: earlier →
    InitializedOn client earlier worker

section Log

variable {client : WorkerClient} {log : List WorkerMessage} {worker : ℕ}

theorem InitializedOn.cons (h : InitializedOn client log worker) (m : WorkerMessage) :
    InitializedOn client (m :: log) worker := by
  obtain ⟨id, hanswered⟩ := h
  exact ⟨id, hanswered.cons m⟩

theorem Preceded.cons (h : Preceded client log) {m : WorkerMessage}
    (hm : ∀ worker id, m = .posted worker id client.useType → InitializedOn client log worker) :
    Preceded client (m :: log) := by
  intro later earlier worker id heq
  cases later with
  | nil =>
    cases heq
    exact hm worker id rfl
  | cons first later =>
    obtain ⟨-, htail⟩ := cons.inj heq
    exact h later earlier worker id htail

end Log

namespace ClientState

/-- Every message so far is preceded, and so is one that a call goes on to post now. -/
def Ordered (client : WorkerClient) (s : ClientState) : Prop :=
  Preceded client s.log ∧
    ∀ k p s', clientStep client s (.resume k p) = some s' → Preceded client s'.log

def Closes (client : WorkerClient) (s : ClientState) : ClientEvent → Prop
  | .terminateCall => True
  | .abort signal =>
    signal ∉ s.aborted ∧ s.listening signal ≠ [] ∧ client.hardAbort = true
  | .error worker => s.worker = some worker
  | .message worker id r => s.worker = some worker ∧ id ∈ s.pending ∧ client.retires r = true ∧
      s.pending.filter (· ≠ id) = []
  | .resume k _ => ∃ promise, s.calls[k]? = some (.disposing promise)
  | _ => False

/-- A call of `run` or `compile` that has its initialization and has not been aborted, with the
changes that the event makes to that. -/
def Waits (s : ClientState) (e : ClientEvent) (c : ClientCall) : Prop :=
  ∃ promise own signal, c = .opening promise own signal ∧
    (s.outcome promise = some .resolved ∨
      s.outcome promise = none ∧
        ∃ worker id r, e = .message worker id r ∧ promise = .operation id) ∧
    s.isAborted signal = false ∧ ∀ a, e = .abort a → signal ≠ some a

def KeepsWorker (client : WorkerClient) (s : ClientState) (e : ClientEvent) : Prop :=
  s.Closes client e → ∀ c ∈ s.calls, ¬ s.Waits e c

def Ready (s : ClientState) (c : ClientCall) : Prop :=
  ∃ promise own signal, c = .opening promise own signal ∧
    s.outcome promise = some .resolved ∧ s.isAborted signal = false

structure Guarded (client : WorkerClient) (s : ClientState) : Prop where
  preceded : Preceded client s.log
  ready : ∀ c ∈ s.calls, s.Ready c →
    ∃ worker, s.worker = some worker ∧ InitializedOn client s.log worker

variable {client : WorkerClient} {s s' s₁ : ClientState} {type : RequestType} {signal : Option ℕ}
  {p : Posting} {worker : ℕ}

theorem useType_ne_initializeType (client : WorkerClient) :
    client.useType ≠ client.initializeType := by
  cases client <;> exact nofun

theorem useType_ne_dispose (client : WorkerClient) : client.useType ≠ .dispose := by
  cases client <;> exact nofun

theorem Sound.initializedOn_lt (hs : s.Sound client)
    (h : InitializedOn client s.log worker) : worker < s.workers := by
  obtain ⟨id, later, earlier, hlog, -⟩ := h
  apply hs.log (.received worker id)
  rw [hlog]
  exact mem_append_right _ mem_cons_self

theorem preceded_post (signal : Option ℕ) (posted : Bool) (h : Preceded client s.log)
    (huse : type = client.useType → InitializedOn client s.log worker) :
    Preceded client (s.post worker type signal posted).log := by
  cases posted with
  | false => exact h
  | true =>
    apply h.cons
    rintro _ _ ⟨⟩
    exact huse rfl

/-- Whether every ready call may go on is whether the current instance is initialized. -/
theorem ordered_iff (hs : s.Sound client) : s.Ordered client ↔ s.Guarded client := by
  constructor
  · rintro ⟨hpreceded, hnext⟩
    refine ⟨hpreceded, fun c hc hready => ?_⟩
    obtain ⟨promise, own, signal, rfl, hresolved, haborted⟩ := hready
    obtain ⟨k, hk⟩ := mem_iff_getElem?.mp hc
    have hstep : ∀ promise' s₁, ClientState.request { s with calls := s.calls.eraseIdx k }
        client.useType signal ⟨true, true⟩ = (some promise', s₁) → Preceded client s₁.log := by
      intro promise' s₁ hrequest
      apply hnext k ⟨true, true⟩ (s₁.await (.running promise'))
      rw [clientStep, hk, Option.bind_some]
      show (s.outcome promise).map _ = _
      rw [hresolved, Option.map_some, ClientState.resume, hrequest]
    have hcases := request_cases { s with calls := s.calls.eraseIdx k } client.useType signal
      ⟨true, true⟩
    generalize ClientState.request { s with calls := s.calls.eraseIdx k } client.useType signal
      ⟨true, true⟩ = result at hcases hstep
    cases hcases with
    | refused htrue =>
      rw [show s.isAborted signal = true from htrue] at haborted
      cases haborted
    | thrown haborted' hworker hcreated => cases hcreated
    | current haborted' worker hworker =>
      exact ⟨worker, hworker, hstep _ _ rfl [] s.log worker (s.nextId + 1) rfl⟩
    | created haborted' hworker hcreated =>
      have hfresh : InitializedOn client s.log s.workers :=
        hstep _ _ rfl [] s.log s.workers (s.nextId + 1) rfl
      exact absurd (hs.initializedOn_lt hfresh) (Nat.lt_irrefl _)
  · rintro ⟨hpreceded, hready⟩
    refine ⟨hpreceded, fun k p s' hstep => ?_⟩
    cases clientStep_effect hstep with
    | finish k p c hc hopening hdisposing promise own =>
      unfold clearGate
      split <;> exact hpreceded
    | use k p promise promise' own signal s₁ hc hresolved hrequests =>
      have hcall := mem_of_getElem? hc
      cases hrequests with
      | refused haborted => exact hpreceded
      | current haborted worker hworker =>
        obtain ⟨worker', hworker', hinitialized⟩ :=
          hready _ hcall ⟨promise, own, signal, rfl, hresolved, haborted⟩
        obtain rfl : worker = worker' := some.inj (hworker.symm.trans hworker')
        exact preceded_post signal p.posted hpreceded fun _ => hinitialized
      | created haborted hworker hcreated =>
        obtain ⟨worker', hworker', -⟩ :=
          hready _ hcall ⟨promise, own, signal, rfl, hresolved, haborted⟩
        cases hworker.symm.trans hworker'
    | useAgainThrown k p promise own signal _ hc hresolved hrequests =>
      cases hrequests with
      | thrown haborted hworker hcreated => exact hpreceded
    | disposed k p promise hc hsettled => exact hpreceded

/-! ### The parts of a step -/

theorem Guarded.frame (hg : s.Guarded client) (hpreceded : Preceded client s'.log)
    (hworker : s'.worker = s.worker)
    (hlog : ∀ w, InitializedOn client s.log w → InitializedOn client s'.log w)
    (hready : ∀ c ∈ s'.calls, s'.Ready c → c ∈ s.calls ∧ s.Ready c) : s'.Guarded client := by
  refine ⟨hpreceded, fun c hc hr => ?_⟩
  obtain ⟨hc, hr⟩ := hready c hc hr
  obtain ⟨worker, hsome, hinitialized⟩ := hg.ready c hc hr
  exact ⟨worker, hworker.trans hsome, hlog worker hinitialized⟩

theorem Guarded.await (hg : s.Guarded client) {c : ClientCall}
    (hc : s.Ready c → ∃ worker, s.worker = some worker ∧ InitializedOn client s.log worker) :
    (s.await c).Guarded client := by
  refine ⟨hg.preceded, fun d hd hready => ?_⟩
  rcases mem_append.mp hd with hd | hd
  · exact hg.ready d hd hready
  · rw [mem_singleton.mp hd] at hready
    exact hc hready

theorem Guarded.eraseCall (hg : s.Guarded client) (k : ℕ) :
    Guarded client { s with calls := s.calls.eraseIdx k } :=
  hg.frame hg.preceded rfl (fun _ h => h) fun _ hc hr => ⟨mem_of_mem_eraseIdx hc, hr⟩

theorem outcome_post (hs : s.Sound client) {c : ClientCall} (hc : c ∈ s.calls) (worker : ℕ)
    (type : RequestType) (signal : Option ℕ) (posted : Bool) :
    (s.post worker type signal posted).outcome c.promise = s.outcome c.promise := by
  cases hpromise : c.promise with
  | refused k => rfl
  | operation id =>
    obtain ⟨op, hop, -⟩ := hs.calls c hc id hpromise
    rw [outcome, outcome, post_operations_of_known hs hop, hop]

theorem outcome_post_self (s : ClientState) (worker : ℕ) (type : RequestType) (signal : Option ℕ)
    (posted : Bool) :
    (s.post worker type signal posted).outcome (.operation (s.nextId + 1)) ≠ some .resolved := by
  rw [outcome, post_operations_self]
  cases posted <;> exact nofun

theorem Guarded.post (hg : s.Guarded client) (hs : s.Sound client)
    (huse : type = client.useType → InitializedOn client s.log worker) (signal : Option ℕ)
    (posted : Bool) : (s.post worker type signal posted).Guarded client := by
  apply hg.frame (preceded_post signal posted hg.preceded huse) rfl
  · intro w h
    cases posted with
    | true => exact h.cons _
    | false => exact h
  · intro c hc hr
    obtain ⟨promise, own, signal', rfl, hresolved, haborted⟩ := hr
    have houtcome := outcome_post hs hc worker type signal posted
    exact ⟨hc, promise, own, signal', rfl, houtcome.symm.trans hresolved, haborted⟩

theorem Guarded.not_ready (hg : s.Guarded client) (hworker : s.worker = none) {c : ClientCall}
    (hc : c ∈ s.calls) : ¬ s.Ready c := by
  intro hready
  obtain ⟨worker, hsome, -⟩ := hg.ready c hc hready
  cases hworker.symm.trans hsome

theorem Guarded.requests (hg : s.Guarded client) (hs : s.Sound client)
    (huse : type = client.useType → s.isAborted signal = false →
      ∃ worker, s.worker = some worker ∧ InitializedOn client s.log worker)
    {promise : Option RequestPromise} (h : Requests s type signal p (promise, s₁)) :
    s₁.Guarded client ∧ ∀ q, promise = some q → s₁.outcome q ≠ some .resolved := by
  cases h with
  | refused haborted =>
    refine ⟨hg.frame hg.preceded rfl (fun _ h => h) fun _ hc hr => ⟨hc, hr⟩, ?_⟩
    rintro _ ⟨⟩
    exact nofun
  | thrown haborted hworker hcreated => exact ⟨hg, nofun⟩
  | current haborted worker hworker =>
    refine ⟨hg.post hs (fun htype => ?_) signal p.posted, ?_⟩
    · obtain ⟨worker', hworker', hinitialized⟩ := huse htype haborted
      obtain rfl : worker = worker' := some.inj (hworker.symm.trans hworker')
      exact hinitialized
    · rintro _ ⟨⟩
      exact outcome_post_self s worker type signal p.posted
  | created haborted hworker hcreated =>
    have hnext : Guarded client { s with worker := some s.workers, workers := s.workers + 1 } :=
      ⟨hg.preceded, fun c hc hready => absurd hready (hg.not_ready hworker hc)⟩
    refine ⟨hnext.post (hs.create hworker) (fun htype => ?_) signal p.posted, ?_⟩
    · obtain ⟨worker', hworker', -⟩ := huse htype haborted
      cases hworker.symm.trans hworker'
    · rintro _ ⟨⟩
      exact outcome_post_self _ s.workers type signal p.posted

/-- A call that waits for the gate, or for a promise of its own. -/
theorem Guarded.opens (hg : s.Guarded client) (hs : s.Sound client)
    {result : Option (RequestPromise × Bool)} (h : Opens client s signal p (result, s₁)) :
    s₁.Guarded client ∧ ∀ promise own, result = some (promise, own) →
      s₁.outcome promise = some .resolved →
        ∃ worker, s₁.worker = some worker ∧ InitializedOn client s₁.log worker := by
  have huse : client.initializeType = client.useType → s.isAborted signal = false →
      ∃ worker, s.worker = some worker ∧ InitializedOn client s.log worker :=
    fun htype => absurd htype.symm (useType_ne_initializeType client)
  cases h with
  | gate gate hgate =>
    refine ⟨hg, ?_⟩
    rintro _ _ ⟨⟩ hresolved
    cases gate with
    | refused k => cases hresolved
    | operation id =>
      obtain ⟨op, hop, htype, hcurrent⟩ := hs.gate _ hgate id rfl
      rw [outcome, hop, Option.bind_some] at hresolved
      have hanswered := hs.answered id op hop hresolved
      rw [htype] at hanswered
      exact ⟨op.worker, hcurrent, id, hanswered⟩
  | thrown hgate s₁ hrequests => exact ⟨(hg.requests hs huse hrequests).1, nofun⟩
  | requested hgate promise s₁ hrequests =>
    obtain ⟨hg₁, hnot⟩ := hg.requests hs huse hrequests
    refine ⟨hg₁.frame hg₁.preceded rfl (fun _ h => h) fun _ hc hr => ⟨hc, hr⟩, ?_⟩
    rintro _ _ ⟨⟩ hresolved
    exact absurd hresolved (hnot promise rfl)

theorem guarded_closed_iff (hpreceded : Preceded client s.log) (hworker : s.worker = none) :
    s.Guarded client ↔ ∀ c ∈ s.calls, ¬ s.Ready c :=
  ⟨fun hg _ hc => hg.not_ready hworker hc,
    fun hnone => ⟨hpreceded, fun c hc hready => absurd hready (hnone c hc)⟩⟩

theorem outcome_close (s : ClientState) (error : Bool) (promise : RequestPromise) :
    (s.close error).outcome promise = some .resolved ↔ s.outcome promise = some .resolved := by
  cases error with
  | false => exact Iff.rfl
  | true =>
    cases promise with
    | refused k => exact Iff.rfl
    | operation id =>
      show ((rejectAll s.operations s.pending id).bind fun op => op.settlements.head?) = _ ↔
        ((s.operations id).bind fun op => op.settlements.head?) = _
      unfold rejectAll
      split
      · cases s.operations id with
        | none => exact Iff.rfl
        | some op =>
          show (op.settlements ++ [Settlement.rejected]).head? = _ ↔ op.settlements.head? = _
          cases op.settlements with
          | nil => exact iff_of_false nofun nofun
          | cons first rest => exact Iff.rfl
      · exact Iff.rfl

theorem ready_close (s : ClientState) (error : Bool) (c : ClientCall) :
    (s.close error).Ready c ↔ s.Ready c := by
  constructor
  · rintro ⟨promise, own, signal, rfl, hresolved, haborted⟩
    exact ⟨promise, own, signal, rfl, (outcome_close s error promise).mp hresolved, haborted⟩
  · rintro ⟨promise, own, signal, rfl, hresolved, haborted⟩
    exact ⟨promise, own, signal, rfl, (outcome_close s error promise).mpr hresolved, haborted⟩

/-- What a response to the operation resolves. -/
theorem outcome_settle {id : ℕ} {op : ClientOperation} (hop : s.operations id = some op)
    (r : Settlement) (promise : RequestPromise) :
    (s.settle id r).outcome promise = some .resolved ↔ s.outcome promise = some .resolved ∨
      r = .resolved ∧ s.outcome promise = none ∧ promise = .operation id := by
  cases promise with
  | refused k => exact iff_of_false nofun (by rintro (h | ⟨-, h, -⟩) <;> cases h)
  | operation j =>
    by_cases hj : j = id
    · subst hj
      have hself : (s.settle j r).operations j = some (op.settle r) := by
        show Function.update s.operations j _ j = _
        rw [Function.update_self, hop]
        rfl
      rw [outcome, hself, outcome, hop, Option.bind_some, Option.bind_some]
      show (op.settlements ++ [r]).head? = _ ↔ _
      cases op.settlements with
      | nil =>
        constructor
        · intro h
          exact .inr ⟨some.inj h, rfl, rfl⟩
        · rintro (h | ⟨rfl, -, -⟩)
          · cases h
          · rfl
      | cons first rest =>
        constructor
        · exact .inl
        · rintro (h | ⟨-, h, -⟩)
          · exact h
          · cases h
    · have hother : (s.settle id r).operations j = s.operations j := Function.update_of_ne hj _ _
      rw [outcome, hother, outcome]
      refine ⟨.inl, ?_⟩
      rintro (h | ⟨-, -, h⟩)
      · exact h
      · exact absurd (RequestPromise.operation.inj h) hj

theorem isAborted_cons (s : ClientState) (a : ℕ) (signal : Option ℕ) :
    isAborted { s with aborted := a :: s.aborted } signal = false ↔
      s.isAborted signal = false ∧ signal ≠ some a := by
  cases signal with
  | none => exact iff_of_true rfl ⟨rfl, nofun⟩
  | some b =>
    show (a :: s.aborted).contains b = false ↔ s.aborted.contains b = false ∧ _
    rw [contains_cons, Bool.or_eq_false_iff, and_comm, beq_eq_false_iff_ne]
    exact and_congr_right fun _ => not_congr Option.some_inj.symm

/-! ### Every step -/

theorem guarded_close_iff {e : ClientEvent} (hcloses : s.Closes client e)
    (hpreceded : Preceded client s₁.log) (error : Bool)
    (hwaits : ∀ c, c ∈ s₁.calls ∧ s₁.Ready c ↔ c ∈ s.calls ∧ s.Waits e c) :
    (s₁.close error).Guarded client ↔ s.KeepsWorker client e := by
  have hclosed : (s₁.close error).Guarded client ↔
      ∀ c ∈ s₁.calls, ¬ (s₁.close error).Ready c := guarded_closed_iff hpreceded rfl
  rw [hclosed]
  constructor
  · intro hnone _ c hc hw
    obtain ⟨hc₁, hready⟩ := (hwaits c).mpr ⟨hc, hw⟩
    exact hnone c hc₁ ((ready_close s₁ error c).mpr hready)
  · intro hkeeps c hc hready
    obtain ⟨hc', hw⟩ := (hwaits c).mp ⟨hc, (ready_close s₁ error c).mp hready⟩
    exact hkeeps hcloses c hc' hw

theorem waits_iff (e : ClientEvent) (hmessage : ∀ worker id r, e ≠ .message worker id r)
    (habort : ∀ a, e ≠ .abort a) (c : ClientCall) : s.Waits e c ↔ s.Ready c := by
  constructor
  · rintro ⟨promise, own, signal, rfl, hresolved | ⟨-, worker, id, r, he, -⟩, haborted, -⟩
    · exact ⟨promise, own, signal, rfl, hresolved, haborted⟩
    · exact absurd he (hmessage worker id r)
  · rintro ⟨promise, own, signal, rfl, hresolved, haborted⟩
    exact ⟨promise, own, signal, rfl, .inl hresolved, haborted, fun a he => absurd he (habort a)⟩

theorem Guarded.cancelAll (hg : s.Guarded client) (ids : List ℕ) :
    (ids.foldl cancel s).Guarded client := by
  induction ids generalizing s with
  | nil => exact hg
  | cons id ids ih =>
    apply ih
    unfold cancel
    split
    · exact hg.frame (hg.preceded.cons nofun) rfl (fun _ h => h.cons _) fun _ hc hr => ⟨hc, hr⟩
    · exact hg

theorem Guarded.abort (hg : s.Guarded client) (a : ℕ) :
    Guarded client { s with aborted := a :: s.aborted } := by
  refine hg.frame hg.preceded rfl (fun _ h => h) ?_
  rintro _ hc ⟨promise, own, signal, rfl, hresolved, haborted⟩
  exact ⟨hc, promise, own, signal, rfl, hresolved, ((isAborted_cons s a signal).mp haborted).1⟩

theorem guarded_aborts (hg : s.Guarded client) {a : ℕ} (h : Aborts client s a s') :
    s'.Guarded client ↔ s.KeepsWorker client (.abort a) := by
  cases h with
  | again haborted => exact iff_of_true hg fun hcloses => absurd haborted hcloses.1
  | unheard hlistening =>
    exact iff_of_true (hg.abort a) fun hcloses => absurd hlistening hcloses.2.1
  | hard hlistening hhard hfresh =>
    have hcloses : s.Closes client (.abort a) := ⟨hfresh, hlistening, hhard⟩
    refine guarded_close_iff hcloses (hg.abort a).preceded true fun c => ?_
    apply and_congr_right
    intro hc
    constructor
    · rintro ⟨promise, own, signal, rfl, hresolved, haborted⟩
      obtain ⟨haborted, hother⟩ := (isAborted_cons s a signal).mp haborted
      refine ⟨promise, own, signal, rfl, .inl hresolved, haborted, ?_⟩
      rintro _ ⟨⟩
      exact hother
    · rintro ⟨promise, own, signal, rfl, hresolved | ⟨-, _, _, _, he, -⟩, haborted, hother⟩
      · exact ⟨promise, own, signal, rfl, hresolved,
          (isAborted_cons s a signal).mpr ⟨haborted, hother a rfl⟩⟩
      · cases he
  | soft hhard =>
    refine iff_of_true ((hg.abort a).cancelAll _) fun hcloses => ?_
    have htrue := hcloses.2.2
    rw [hhard] at htrue
    cases htrue

/-- The calls that a response makes ready. -/
theorem ready_settle {id : ℕ} (hs : s.Sound client) (hpending : id ∈ s.pending) (r : WorkerResponse)
    (log : List WorkerMessage) (c : ClientCall) :
    Ready { s.settle id .resolved with log := log } c ↔ s.Waits (.message worker id r) c := by
  obtain ⟨op, hop, -⟩ := hs.pending id hpending
  constructor
  · rintro ⟨promise, own, signal, rfl, hresolved, haborted⟩
    refine ⟨promise, own, signal, rfl, ?_, haborted, nofun⟩
    rcases (outcome_settle hop .resolved promise).mp hresolved with hresolved | ⟨-, hnone, hid⟩
    · exact .inl hresolved
    · exact .inr ⟨hnone, worker, id, r, rfl, hid⟩
  · rintro ⟨promise, own, signal, rfl, hresolved, haborted, -⟩
    refine ⟨promise, own, signal, rfl, (outcome_settle hop .resolved promise).mpr ?_, haborted⟩
    rcases hresolved with hresolved | ⟨hnone, _, _, _, he, hid⟩
    · exact .inl hresolved
    · cases he
      exact .inr ⟨rfl, hnone, hid⟩

/-- An initialization succeeds on the current instance. -/
theorem Guarded.reply (hg : s.Guarded client) (hs : s.Sound client) {id : ℕ}
    (hworker : s.worker = some worker) (hpending : id ∈ s.pending) :
    Guarded client { s.settle id .resolved with log := .received worker id :: s.log } := by
  refine ⟨hg.preceded.cons nofun, fun c hc hready => ?_⟩
  have hnext := hs.reply hworker hpending
  obtain ⟨op, hop, hcurrent⟩ := hs.pending id hpending
  obtain ⟨promise, own, signal, rfl, hresolved, haborted⟩ := hready
  rcases (outcome_settle hop .resolved promise).mp hresolved with hbefore | ⟨-, -, rfl⟩
  · obtain ⟨worker', hworker', hinitialized⟩ :=
      hg.ready _ hc ⟨promise, own, signal, rfl, hbefore, haborted⟩
    exact ⟨worker', hworker', hinitialized.cons _⟩
  · obtain ⟨op', hop', htype⟩ := hnext.calls _ hc id rfl
    have hsettled : Settled .resolved s.operations (s.settle id .resolved).operations :=
      settled_update s.operations id .resolved
    obtain ⟨op'', hop'', -, hsame, -⟩ := hsettled.back hop'
    obtain rfl : op = op'' := some.inj (hop.symm.trans hop'')
    have hhead : op'.settlements.head? = some .resolved := by
      have hout : ((s.settle id .resolved).operations id).bind (fun op => op.settlements.head?) =
        some .resolved := hresolved
      rw [hop'] at hout
      exact hout
    have hanswered := hnext.answered id op' hop' hhead
    rw [htype] at hanswered
    exact ⟨op'.worker, by rw [hsame]; exact hcurrent, id, hanswered⟩

theorem guarded_replies (hg : s.Guarded client) (hs : s.Sound client) {id : ℕ}
    {r : WorkerResponse} (hworker : s.worker = some worker) (h : Replies client s worker id r s') :
    s'.Guarded client ↔ s.KeepsWorker client (.message worker id r) := by
  cases h with
  | ignored hretires =>
    exact iff_of_true hg fun hcloses => absurd hcloses.2.1 (hretires hcloses.2.2.1)
  | rejected hpending hretires =>
    obtain ⟨op, hop, -⟩ := hs.pending id hpending
    refine iff_of_true (hg.frame hg.preceded rfl (fun _ h => h) ?_) fun hcloses => ?_
    · rintro _ hc ⟨promise, own, signal, rfl, hresolved, haborted⟩
      refine ⟨hc, promise, own, signal, rfl, ?_, haborted⟩
      rcases (outcome_settle hop .rejected promise).mp hresolved with hbefore | ⟨h, -⟩
      · exact hbefore
      · cases h
    · have htrue := hcloses.2.2.1
      rw [hretires] at htrue
      cases htrue
  | resolved hpending hretires =>
    refine iff_of_true (hg.reply hs hworker hpending) fun hcloses => ?_
    exact absurd hcloses.2.2.2 (hretires hcloses.2.2.1)
  | retired hpending hretires hempty =>
    have hcloses : s.Closes client (.message worker id r) := ⟨hworker, hpending, hretires, hempty⟩
    refine guarded_close_iff hcloses (hg.reply hs hworker hpending).preceded false fun c => ?_
    exact and_congr_right fun _ => ready_settle hs hpending r _ c

theorem mem_eraseIdx_opening {k : ℕ} {promise : RequestPromise}
    (hk : s.calls[k]? = some (.disposing promise)) (c : ClientCall) :
    c ∈ s.calls.eraseIdx k ∧ s.Ready c ↔ c ∈ s.calls ∧ s.Ready c := by
  refine ⟨fun ⟨hc, hready⟩ => ⟨mem_of_mem_eraseIdx hc, hready⟩, fun ⟨hc, hready⟩ => ?_⟩
  refine ⟨mem_eraseIdx_iff_getElem?.mpr ?_, hready⟩
  obtain ⟨i, hi⟩ := mem_iff_getElem?.mp hc
  refine ⟨i, ?_, hi⟩
  rintro rfl
  obtain ⟨promise', own, signal, rfl, -⟩ := hready
  rw [hk] at hi
  cases hi

theorem guarded_step (hg : s.Guarded client) (hs : s.Sound client) {e : ClientEvent}
    (h : clientStep client s e = some s') : s'.Guarded client ↔ s.KeepsWorker client e := by
  cases clientStep_effect h with
  | initializeCall signal p promise own s₁ hopens =>
    refine iff_of_true ((hg.opens hs hopens).1.await ?_) nofun
    rintro ⟨_, _, _, h, -⟩
    cases h
  | initializeThrown signal p _ hopens
  | useThrown signal p _ hopens => exact iff_of_true (hg.opens hs hopens).1 nofun
  | useCall signal p promise own s₁ hopens =>
    obtain ⟨hg₁, hgate⟩ := hg.opens hs hopens
    refine iff_of_true (hg₁.await ?_) nofun
    rintro ⟨_, _, _, ⟨⟩, hresolved, -⟩
    exact hgate promise own rfl hresolved
  | disposeIdle p hworker => exact iff_of_true hg nofun
  | disposeCall p worker hworker =>
    have hpost : (s.post worker .dispose none p.posted).Guarded client :=
      hg.post hs (fun htype => absurd htype.symm (useType_ne_dispose client)) none p.posted
    refine iff_of_true (hpost.await ?_) nofun
    rintro ⟨_, _, _, h, -⟩
    cases h
  | terminateCall =>
    refine guarded_close_iff (show s.Closes client .terminateCall from trivial) hg.preceded true
      fun c => and_congr_right fun _ => (waits_iff .terminateCall nofun nofun c).symm
  | abort signal _ haborts => exact guarded_aborts hg haborts
  | message worker id r _ hworker hreplies => exact guarded_replies hg hs hworker hreplies
  | lateMessage worker id r hworker =>
    exact iff_of_true hg fun hcloses => absurd hcloses.1 hworker
  | error worker hworker =>
    refine guarded_close_iff (show s.Closes client (.error worker) from hworker) hg.preceded true
      fun c => and_congr_right fun _ => (waits_iff (.error worker) nofun nofun c).symm
  | lateError worker hworker => exact iff_of_true hg fun hcloses => absurd hcloses hworker
  | finish k p c hc hopening hdisposing promise own =>
    refine iff_of_true ?_ ?_
    · have hg₁ := hg.eraseCall k
      unfold clearGate
      split
      · exact hg₁.frame hg₁.preceded rfl (fun _ h => h) fun _ hc hr => ⟨hc, hr⟩
      · exact hg₁
    · rintro ⟨promise', hc'⟩
      rw [hc] at hc'
      exact absurd (some.inj hc') (hdisposing promise')
  | use k p promise promise' own signal s₁ hc hresolved hrequests =>
    have hready : ∀ haborted : s.isAborted signal = false, s.Ready (.opening promise own signal) :=
      fun haborted => ⟨promise, own, signal, rfl, hresolved, haborted⟩
    obtain ⟨hg₁, -⟩ := (hg.eraseCall k).requests (hs.eraseCall k)
      (fun _ haborted => hg.ready _ (mem_of_getElem? hc) (hready haborted)) hrequests
    refine iff_of_true (hg₁.await ?_) ?_
    · rintro ⟨_, _, _, h, -⟩
      cases h
    · rintro ⟨promise', hc'⟩
      rw [hc] at hc'
      cases hc'
  | useAgainThrown k p promise own signal _ hc hresolved hrequests =>
    cases hrequests with
    | thrown haborted hworker hcreated =>
      refine iff_of_true (hg.eraseCall k) ?_
      rintro ⟨promise', hc'⟩
      rw [hc] at hc'
      cases hc'
  | disposed k p promise hc hsettled =>
    refine guarded_close_iff (show s.Closes client (.resume k p) from ⟨promise, hc⟩)
      (hg.eraseCall k).preceded false fun c => (mem_eraseIdx_opening hc c).trans ?_
    exact and_congr_right fun _ => (waits_iff (.resume k p) nofun nofun c).symm

/-! ### Every run -/

theorem guarded_initial : initial.Guarded client := by
  refine ⟨fun later earlier worker id heq => ?_, nofun⟩
  exact absurd heq.symm (append_ne_nil_of_right_ne_nil _ (cons_ne_nil _ _))

/-- In every run of a client, each message to run or compile finds its instance initialized, in
every state reached and whichever call goes on there, exactly if no step closes the worker while a
call waits that has its initialization. -/
theorem ordered_throughout_iff (client : WorkerClient) {w : List ClientEvent} {s : ClientState}
    (h : run (clientStep client) initial w = some s) :
    Throughout (clientStep client) (Ordered client) initial w ↔
      Along (clientStep client) (KeepsWorker client) initial w := by
  have hinitial : initial.Sound client := sound_initial
  apply throughout_iff_along (Ordered client) (Sound client) (fun _ _ _ hs hstep => hs.step hstep) _
    hinitial ((ordered_iff hinitial).mpr guarded_initial) h
  intro v e v' hs hordered hstep
  rw [ordered_iff (hs.step hstep)]
  exact guarded_step ((ordered_iff hs).mp hordered) hs hstep

def compileAfterInitialization : List ClientEvent :=
  [.initializeCall none ⟨true, true⟩, .useCall none ⟨true, true⟩, .message 0 1 .compilerInitialized,
    .resume 0 ⟨true, true⟩, .resume 0 ⟨true, true⟩]

/-- The client is terminated by what follows the initialization, before the compilation goes on. -/
def compileAfterTermination : List ClientEvent :=
  [.initializeCall none ⟨true, true⟩, .useCall none ⟨true, true⟩, .message 0 1 .compilerInitialized,
    .resume 0 ⟨true, true⟩, .terminateCall, .resume 0 ⟨true, true⟩]

theorem ordered_compilation : ∃ s, run (clientStep .compiler) initial compileAfterInitialization =
      some s ∧ s.log = [.posted 0 2 .compile, .received 0 1, .posted 0 1 .initializeCompiler] ∧
    (Throughout (clientStep .compiler) (Ordered .compiler) initial compileAfterInitialization ↔
      Along (clientStep .compiler) (KeepsWorker .compiler) initial compileAfterInitialization) :=
  ⟨_, rfl, rfl, ordered_throughout_iff .compiler rfl⟩

/-- The compilation reaches a new instance that has not been initialized. -/
theorem unordered_compilation :
    ∃ s, run (clientStep .compiler) initial compileAfterTermination = some s ∧
      s.log = [.posted 1 2 .compile, .received 0 1, .posted 0 1 .initializeCompiler] ∧
      ¬ Preceded .compiler s.log := by
  refine ⟨_, rfl, rfl, fun hpreceded => ?_⟩
  obtain ⟨id, later, earlier, heq, -⟩ :=
    hpreceded [] [.received 0 1, .posted 0 1 .initializeCompiler] 1 2 rfl
  have hmem : WorkerMessage.received 1 id ∈
      [WorkerMessage.received 0 1, .posted 0 1 .initializeCompiler] := by
    rw [heq]
    exact mem_append_right _ mem_cons_self
  rcases mem_cons.mp hmem with hmem | hmem
  · cases hmem
  · cases mem_singleton.mp hmem

end ClientState

end TraceJvm
