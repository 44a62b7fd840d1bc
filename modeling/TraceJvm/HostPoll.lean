import TraceJvm.HostIsolation

/-! The answers to `poll`: the router gives them to the runtime as the host has written them, while
the runtime compares the descriptors in them with its tokens. -/
namespace TraceJvm

open OrderedMap Transition List Option

/-! ### The handlers -/

namespace JsValue

def isNaN (bits : UInt64) : Bool :=
  bits &&& 0x7ff0000000000000 = 0x7ff0000000000000 && bits &&& 0x000fffffffffffff ≠ 0

def truthy : JsValue → Bool
  | .undefined | .null => false
  | .boolean b => b
  | .integer n => n ≠ 0
  | .double bits => !isNaN bits
  | .string s => s ≠ ""
  | .array _ | .object _ => true

/-- A property of a value that is neither `undefined` nor `null`. -/
def property (v : JsValue) (key : String) : JsValue :=
  match v with
  | .object fields => field fields key
  | _ => .undefined

/-- `v[0]` -/
def first : JsValue → JsValue
  | .array xs => xs.headD .undefined
  | .object fields => field fields "0"
  | .string s => if s = "" then .undefined else .string (s.take 1).toString
  | _ => .undefined

/-- `v === n` -/
def isInteger (v : JsValue) (n : ℤ) : Bool :=
  match v with
  | .integer m => m = n
  | _ => false

/-- `a && a.key` -/
def guarded (v : JsValue) (key : String) : JsValue := if v.truthy then v.property key else v

end JsValue

/-- An entry that the runtime polls. The runtime numbers its remote descriptors from
`TRACEJVM_REMOTE_FD_BASE`, which leaves `0x40000000` tokens. -/
structure PollEntry where
  token : ℕ
  read : Bool
  write : Bool
  small : token < 0x40000000

def PollEntry.toJs (p : PollEntry) : JsValue :=
  .object [("fd", .integer p.token), ("read", .boolean p.read), ("write", .boolean p.write)]

/-- The request of `tracejvm_host_poll_js` and `tracejvm_host_epoll_wait_begin_js`. -/
def pollRequest (polled : List PollEntry) (timeoutMs : JsValue) : JsValue :=
  posixRequest "poll" [("entries", .array (polled.map PollEntry.toJs)), ("timeoutMs", timeoutMs)]

/-- `tracejvm_host_poll_js` with the outcome of the dispatch; none stands for -1. -/
def hostPoll (token : ℕ) : Except HostError JsValue → Option ℕ
  | .error _ => none
  | .ok result =>
      let entries := result.guarded "entries"
      let entry := if entries.truthy then entries.first else entries
      if !entry.truthy || !(entry.property "fd").isInteger token then none
      else some <|
        (if (entry.property "read").truthy then 1 else 0) |||
        (if (entry.property "write").truthy then 2 else 0) |||
        (if (entry.property "error").truthy then 4 else 0) |||
        (if (entry.property "hangup").truthy then 8 else 0) |||
        (if (entry.property "invalid").truthy then 16 else 0)

def epollFlags (entry : JsValue) : ℕ :=
  (if (entry.property "read").truthy then 0x001 else 0) |||
  (if (entry.property "write").truthy then 0x004 else 0) |||
  (if (entry.property "error").truthy then 0x008 else 0) |||
  (if (entry.property "hangup").truthy || (entry.property "invalid").truthy then 0x010 else 0)

def remoteFdBase : ℕ := 0x40000000

/-- The loop of `tracejvm_host_epoll_wait_poll_js`, as the list of the events that it writes. -/
def epollReady (polled : List PollEntry) (capacity : ℕ) :
    ℕ → List JsValue → Option (List (ℕ × ℕ))
  | _, [] => some []
  | ready, entry :: rest =>
      match polled.find? fun p => entry.truthy && (entry.property "fd").isInteger p.token with
      | none => none
      | some p =>
          if epollFlags entry = 0 then epollReady polled capacity ready rest
          else if capacity ≤ ready then some []
          else (epollReady polled capacity (ready + 1) rest).map fun events =>
            (epollFlags entry, p.token + remoteFdBase) :: events

/-- `tracejvm_host_epoll_wait_poll_js` for a call that has settled; none stands for -1. -/
def epollWaitPoll (polled : List PollEntry) (capacity : ℕ) :
    Except HostError JsValue → Option (List (ℕ × ℕ))
  | .error _ => none
  | .ok value =>
      match value.guarded "entries" with
      | .array returned => epollReady polled capacity 0 returned
      | _ => none

/-! ### What the answers mean -/

def echoedDescriptors : JsValue → List JsValue
  | .object fields => namedIn "entries" "fd" fields
  | _ => []

structure RouterVm.Answered (s : RouterVm) (c : ℕ) (o : HostContext) (request response : JsValue)
    (result : Except HostError JsValue) : Prop where
  later : ∃ s' o', Reachable routerStep (s.dispatch c o request).2 s' ∧
    s'.requests s.nextRequest = some ⟨c, request⟩ ∧ s'.objects c = some o' ∧
      ((s'.answer s.nextRequest).applyDescriptorResponse c o' request response).1 = result

def HostContext.Reports (o : HostContext) (p : PollEntry) (entry : JsValue) : Prop :=
  ∃ fields fd, entry = .object fields ∧ get o.descriptors p.token = some fd ∧
    get fields "fd" = some (.integer (fd : ℕ))

def HostContext.Reporting (o : HostContext) (about : List PollEntry) (returned : List JsValue)
    (response : JsValue) : Prop :=
  List.Forall₂ o.Reports about returned ∧
    ∃ fields, response = .object fields ∧ get fields "entries" = some (.array returned)

def readyEvents (capacity : ℕ) (about : List PollEntry) (returned : List JsValue) :
    List (ℕ × ℕ) :=
  (((about.zip returned).filter fun r => epollFlags r.2 ≠ 0).take capacity).map fun r =>
    (epollFlags r.2, r.1.token + remoteFdBase)

/-- `poll` of one descriptor accepts every answer. -/
def PollUnderstood (s : RouterVm) (c : ℕ) (o : HostContext) (p : PollEntry) (timeoutMs : JsValue) :
    Prop :=
  ∀ entry response result, o.Reporting [p] [entry] response →
    s.Answered c o (pollRequest [p] timeoutMs) response result → hostPoll p.token result ≠ none

/-- `epoll_wait` accepts every answer about some of the polled descriptors and attributes the events
to their tokens. -/
def EpollUnderstood (s : RouterVm) (c : ℕ) (o : HostContext) (polled : List PollEntry)
    (timeoutMs : JsValue) : Prop :=
  ∀ about returned response result capacity, (∀ p ∈ about, p ∈ polled) →
    o.Reporting about returned response →
      s.Answered c o (pollRequest polled timeoutMs) response result →
        epollWaitPoll polled capacity result = some (readyEvents capacity about returned)

/-! ### The router -/

section Router

variable {s : RouterVm} {c : ℕ} {o : HostContext}

theorem get_foldl_set {pairs : List (String × ℕ)} {fields : JsFields} {key : String}
    (h : key ∉ pairs.map Prod.fst) :
    get (pairs.foldl (fun fields p => set fields p.1 (.integer p.2)) fields) key =
      get fields key := by
  induction pairs generalizing fields with
  | nil => rfl
  | cons p pairs ih =>
    rw [map_cons, mem_cons, not_or] at h
    rw [foldl_cons, ih h.2, get_set_of_ne (Ne.symm h.1)]

theorem namedIn_congr {list key : String} {fields fields' : JsFields}
    (h : get fields' list = get fields list) :
    namedIn list key fields' = namedIn list key fields := by
  unfold namedIn
  rw [h]

theorem registerFields_get {fields fields' : JsFields} {keys : List String}
    (h : (s.registerFields c o fields keys).1 = .ok fields') {key : String} (hkey : key ∉ keys) :
    get fields' key = get fields key := by
  obtain ⟨tokens, -, rfl⟩ := Except.map_eq_ok h
  apply get_foldl_set
  intro hmem
  obtain ⟨⟨k, token⟩, hk, rfl⟩ := mem_map.mp hmem
  exact hkey (of_mem_zip hk).1

/-- An applied answer repeats what the answer of the host repeats. -/
theorem applyDescriptorResponse_echoed {request response result : JsValue}
    (h : (s.applyDescriptorResponse c o request response).1 = .ok result) :
    echoedDescriptors result = echoedDescriptors response := by
  unfold RouterVm.applyDescriptorResponse at h
  split at h
  · split at h
    · cases h
      rfl
    · split at h
      · cases h
        rfl
      · split at h
        · split at h
          · obtain ⟨fields', hfields, rfl⟩ := Except.map_eq_ok h
            exact namedIn_congr (registerFields_get hfields (by decide))
          · split at h
            · obtain ⟨fields', hfields, rfl⟩ := Except.map_eq_ok h
              exact namedIn_congr (registerFields_get hfields (by decide))
            · split at h
              · split at h
                · obtain ⟨fields', -, rfl⟩ := Except.map_eq_ok h
                  exact namedIn_congr (get_set_of_ne (by decide))
                · cases h
                  rfl
              · cases h
                rfl
        · cases h
          rfl
  · cases h
    rfl

theorem applyDescriptorResponse_poll (polled : List PollEntry) (timeoutMs response : JsValue) :
    (s.applyDescriptorResponse c o (pollRequest polled timeoutMs) response).1 = .ok response := by
  cases response <;> rfl

theorem namedItems_toJs (polled : List PollEntry) :
    namedItems "fd" (polled.map PollEntry.toJs) =
      polled.map fun p => .integer p.token := by
  induction polled with
  | nil => rfl
  | cons p polled ih =>
    rw [map_cons, map_cons, ← ih]
    rfl

theorem namedDescriptors_pollRequest (polled : List PollEntry) (timeoutMs : JsValue) :
    namedDescriptors (pollRequest polled timeoutMs) = polled.map fun p => .integer p.token := by
  rw [← namedItems_toJs]
  exact append_nil _

theorem pollRequest_owned {polled : List PollEntry} {timeoutMs translated : JsValue}
    (h : o.translateDescriptorCapabilities (pollRequest polled timeoutMs) = .ok translated)
    {p : PollEntry} (hp : p ∈ polled) : ∃ fd, get o.descriptors p.token = some fd := by
  by_contra hno
  have howns : ¬ o.OwnsAll (pollRequest polled timeoutMs) := by
    intro howns
    obtain ⟨token, fd, htoken, hget⟩ := howns (.integer p.token) (by
      rw [namedDescriptors_pollRequest]
      exact mem_map_of_mem hp)
    have hcast : (p.token : ℤ) = token := JsValue.integer.inj htoken
    obtain rfl : p.token = token := by omega
    exact hno ⟨fd, hget⟩
  obtain ⟨e, he⟩ := o.translate_refuses howns
  rw [h] at he
  cases he

theorem answered_poll {polled : List PollEntry} {timeoutMs response : JsValue}
    {result : Except HostError JsValue}
    (h : s.Answered c o (pollRequest polled timeoutMs) response result) : result = .ok response := by
  obtain ⟨s', o', -, -, -, rfl⟩ := h.later
  exact applyDescriptorResponse_poll polled timeoutMs response

theorem answered_at_once {request translated : JsValue} (ho : s.objects c = some o)
    (ht : o.translateDescriptorCapabilities request = .ok translated) (response : JsValue) :
    ∃ result, s.Answered c o request response result := by
  have hdispatch : (s.dispatch c o request).2 = s.send c translated (some request) := by
    simp only [RouterVm.dispatch, ht]
  refine ⟨_, ⟨s.send c translated (some request), o, ?_, ?_, ho, rfl⟩⟩
  · rw [hdispatch]
    exact .refl
  · exact Function.update_self ..

end Router

/-! ### The handlers on an answer -/

section Handlers

variable {o : HostContext} {polled about : List PollEntry} {returned : List JsValue}

theorem isInteger_property {fields : JsFields} {fd : ℕ} (h : get fields "fd" = some (.integer fd))
    (token : ℕ) : ((JsValue.object fields).property "fd").isInteger token = decide (fd = token) := by
  simp only [JsValue.property, field, h, Option.getD_some, JsValue.isInteger]
  exact decide_eq_decide.mpr Int.natCast_inj

theorem hostPoll_ne_none_iff {p : PollEntry} {entry response : JsValue} {fd : ℕ}
    (hfd : get o.descriptors p.token = some fd) (h : o.Reporting [p] [entry] response) :
    hostPoll p.token (.ok response) ≠ none ↔ fd = p.token := by
  obtain ⟨hreports, fields, rfl, hentries⟩ := h
  obtain ⟨ef, fd', rfl, hget, hef⟩ := (forall₂_cons.mp hreports).1
  obtain rfl : fd' = fd := some.inj (hget.symm.trans hfd)
  have hmatch := isInteger_property hef p.token
  have hguard : (JsValue.object fields).guarded "entries" = .array [.object ef] := by
    simp only [JsValue.guarded, JsValue.truthy, if_true, JsValue.property, field, hentries,
      Option.getD_some]
  simp only [hostPoll, hguard, JsValue.truthy, if_true, JsValue.first, headD_cons, hmatch]
  by_cases heq : fd' = p.token <;> simp [heq]

/-- The loop on entries whose descriptors are the tokens. -/
theorem epollReady_eq {capacity ready : ℕ} (hpolled : ∀ p ∈ about, p ∈ polled)
    (hreturned : List.Forall₂ (fun p e => e.truthy ∧ ∀ token : ℕ,
      (e.property "fd").isInteger token = decide (p.token = token)) about returned) :
    epollReady polled capacity ready returned =
      some (readyEvents (capacity - ready) about returned) := by
  induction hreturned generalizing ready with
  | nil => simp [epollReady, readyEvents]
  | @cons p entry about returned hentry _ ih =>
    obtain ⟨htruthy, hmatch⟩ := hentry
    have hrest : ∀ q ∈ about, q ∈ polled := fun q hq => hpolled q (mem_cons_of_mem _ hq)
    have hfind : ∃ q, (polled.find? fun q => entry.truthy && (entry.property "fd").isInteger q.token)
        = some q ∧ q.token = p.token := by
      have hsome : (polled.find? fun q =>
          entry.truthy && (entry.property "fd").isInteger q.token).isSome := by
        rw [find?_isSome]
        refine ⟨p, hpolled p mem_cons_self, ?_⟩
        simp [htruthy, hmatch]
      obtain ⟨q, hq⟩ := Option.isSome_iff_exists.mp hsome
      refine ⟨q, hq, ?_⟩
      have hqmatch := find?_some hq
      rw [hmatch, Bool.and_eq_true, decide_eq_true_eq] at hqmatch
      exact hqmatch.2.symm
    obtain ⟨q, hq, htoken⟩ := hfind
    simp only [epollReady, hq]
    by_cases hflags : epollFlags entry = 0
    · rw [if_pos hflags, ih hrest]
      simp [readyEvents, hflags]
    · rw [if_neg hflags]
      split
      · rename_i hfull
        simp [readyEvents, Nat.sub_eq_zero_of_le hfull]
      · rename_i hroom
        rw [ih hrest]
        have hsucc : capacity - ready = capacity - (ready + 1) + 1 := by omega
        rw [hsucc]
        simp [readyEvents, hflags, htoken]

theorem epollWaitPoll_array {fields : JsFields} (capacity : ℕ)
    (h : get fields "entries" = some (.array returned)) :
    epollWaitPoll polled capacity (.ok (.object fields)) = epollReady polled capacity 0 returned := by
  have hguard : (JsValue.object fields).guarded "entries" = .array returned := by
    simp only [JsValue.guarded, JsValue.truthy, if_true, JsValue.property, field, h,
      Option.getD_some]
  simp only [epollWaitPoll, hguard]

/-- Where the polled descriptors are their own tokens every answer is understood. -/
theorem epollWaitPoll_right {response : JsValue} (capacity : ℕ)
    (hself : ∀ p ∈ polled, get o.descriptors p.token = some p.token)
    (hpolled : ∀ p ∈ about, p ∈ polled) (h : o.Reporting about returned response) :
    epollWaitPoll polled capacity (.ok response) = some (readyEvents capacity about returned) := by
  obtain ⟨hreports, fields, rfl, hentries⟩ := h
  rw [epollWaitPoll_array capacity hentries]
  apply epollReady_eq hpolled
  have hall : ∀ p ∈ about, get o.descriptors p.token = some p.token :=
    fun p hp => hself p (hpolled p hp)
  clear hpolled hentries
  induction hreports with
  | nil => exact .nil
  | @cons p entry about returned hentry _ ih =>
    refine .cons ?_ (ih fun q hq => hall q (mem_cons_of_mem _ hq))
    obtain ⟨ef, fd, rfl, hget, hef⟩ := hentry
    obtain rfl : fd = p.token :=
      some.inj (hget.symm.trans (hall p mem_cons_self))
    exact ⟨rfl, isInteger_property hef⟩

def readable (fd : ℕ) : JsValue := .object [("fd", .integer fd), ("read", .boolean true)]

/-- It is not understood where the descriptor is another number than its token. -/
theorem epollWaitPoll_wrong {p : PollEntry} {fd : ℕ} (hne : fd ≠ p.token) :
    epollWaitPoll polled 1 (.ok (.object [("entries", .array [readable fd])])) ≠
      some (readyEvents 1 [p] [readable fd]) := by
  have hflags : epollFlags (readable fd) = 1 := by
    simp [epollFlags, readable, JsValue.property, field, OrderedMap.get, JsValue.truthy]
  have hevents : readyEvents 1 [p] [readable fd] = [(1, p.token + remoteFdBase)] := by
    simp [readyEvents, hflags]
  rw [epollWaitPoll_array 1 (show get _ "entries" = some (JsValue.array [readable fd]) from rfl),
    hevents, epollReady]
  split
  · intro h
    cases h
  · rename_i q hq
    have hmatch := find?_some hq
    have hget : get [("fd", JsValue.integer fd), ("read", .boolean true)] "fd" =
        some (.integer fd) := rfl
    have hq' : fd = q.token := by
      simpa [readable, JsValue.truthy, isInteger_property hget] using hmatch
    rw [hflags, if_neg (by decide), if_neg (by decide)]
    intro heq
    have hhead := some.inj heq
    have htoken : q.token + remoteFdBase = p.token + remoteFdBase := by
      simpa [epollReady] using hhead
    omega

end Handlers

/-- The answers that the host gives to the requests of a context speak of its tokens exactly where
these are the numbers of the host descriptors. -/
theorem hostAnswers_named_iff (s : RouterVm) {c : ℕ} {o : HostContext} (ho : s.objects c = some o) :
    (∀ request response result, s.Answered c o request response (.ok result) →
      ∀ j token fd : ℕ, .integer token ∈ namedDescriptors request →
        get o.descriptors token = some fd → (echoedDescriptors response)[j]? = some (.integer fd) →
          ((echoedDescriptors result)[j]? = some (.integer token) ↔ fd = token)) ∧
    (∀ p timeoutMs translated,
      o.translateDescriptorCapabilities (pollRequest [p] timeoutMs) = .ok translated →
        (PollUnderstood s c o p timeoutMs ↔ get o.descriptors p.token = some p.token)) ∧
    ∀ polled timeoutMs translated,
      o.translateDescriptorCapabilities (pollRequest polled timeoutMs) = .ok translated →
        (EpollUnderstood s c o polled timeoutMs ↔
          ∀ p ∈ polled, get o.descriptors p.token = some p.token) := by
  refine ⟨?_, ?_, ?_⟩
  · intro request response result h j token fd _ _ hj
    obtain ⟨s', o', -, -, -, happly⟩ := h.later
    rw [applyDescriptorResponse_echoed happly, hj, some.injEq, JsValue.integer.injEq]
    exact Int.natCast_inj
  · intro p timeoutMs translated ht
    obtain ⟨fd, hfd⟩ := pollRequest_owned ht mem_cons_self
    constructor
    · intro h
      have hreporting : o.Reporting [p] [readable fd] (.object [("entries", .array [readable fd])]) :=
        ⟨.cons ⟨_, fd, rfl, hfd, rfl⟩ .nil, _, rfl, rfl⟩
      obtain ⟨result, hanswered⟩ := answered_at_once ho ht (.object [("entries", .array [readable fd])])
      have hok := h _ _ _ hreporting hanswered
      rw [answered_poll hanswered, hostPoll_ne_none_iff hfd hreporting] at hok
      rw [hfd, hok]
    · intro hself entry response result hreporting hanswered
      rw [answered_poll hanswered, hostPoll_ne_none_iff hfd hreporting]
      exact some.inj (hfd.symm.trans hself)
  · intro polled timeoutMs translated ht
    constructor
    · intro h p hp
      obtain ⟨fd, hfd⟩ := pollRequest_owned ht hp
      by_contra hne
      have hne' : fd ≠ p.token := fun heq => hne (by rw [hfd, heq])
      have hreporting : o.Reporting [p] [readable fd] (.object [("entries", .array [readable fd])]) :=
        ⟨.cons ⟨_, fd, rfl, hfd, rfl⟩ .nil, _, rfl, rfl⟩
      obtain ⟨result, hanswered⟩ := answered_at_once ho ht (.object [("entries", .array [readable fd])])
      have hok := h [p] _ _ _ 1 (by simpa using hp) hreporting hanswered
      rw [answered_poll hanswered] at hok
      exact epollWaitPoll_wrong hne' hok
    · intro hself about returned response result capacity hpolled hreporting hanswered
      rw [answered_poll hanswered]
      exact epollWaitPoll_right capacity hself hpolled hreporting

/-- A poll of the standard input, which is its own token. -/
theorem hostAnswers_named_iff_standardInput :
    ∃ s o, Reachable routerStep (.start ⟨true, true, some true⟩) s ∧ s.objects 1 = some o ∧
      PollUnderstood s 1 o ⟨0, true, false, by decide⟩ .undefined := by
  have hrun : ∃ s o translated, run routerStep (.start ⟨true, true, some true⟩)
      [.createContext ⟨false, false, none⟩] = some s ∧ s.objects 1 = some o ∧
        o.translateDescriptorCapabilities
          (pollRequest [⟨0, true, false, by decide⟩] .undefined) = .ok translated ∧
        get o.descriptors 0 = some 0 := ⟨_, _, _, rfl, rfl, rfl, rfl⟩
  obtain ⟨s, o, translated, hs, ho, ht, hget⟩ := hrun
  refine ⟨s, o, reachable_of_run hs, ho, ?_⟩
  exact ((hostAnswers_named_iff s ho).2.1 _ _ _ ht).mpr hget

/-- The context polls the token 3 of a file which the host knows as 7. The host answers that 7 can be
read, and the runtime refuses the answer. -/
theorem hostPoll_refuses_answer :
    ∃ s o result, run routerStep (.start ⟨true, true, none⟩)
      [.createContext ⟨false, false, none⟩, .run 1,
        .dispatchSync (posixRequest "open" [("path", .string "/workspace/input.txt")]),
        .respond 0 (.object [("fd", .integer 7)])] = some s ∧ s.objects 1 = some o ∧
      o.Reporting [⟨3, true, false, by decide⟩] [readable 7]
        (.object [("entries", .array [readable 7])]) ∧
      s.Answered 1 o (pollRequest [⟨3, true, false, by decide⟩] .undefined)
        (.object [("entries", .array [readable 7])]) result ∧
      hostPoll 3 result = none :=
  ⟨_, _, _, rfl, rfl, ⟨.cons ⟨_, 7, rfl, rfl, rfl⟩ .nil, _, rfl, rfl⟩,
    ⟨⟨_, _, .refl, rfl, rfl, rfl⟩⟩, rfl⟩

end TraceJvm
