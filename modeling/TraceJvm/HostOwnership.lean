import TraceJvm.HostIsolation
import Mathlib.Data.List.Nodup

/-! Ownership of host descriptors: what becomes of the descriptors that the host returns, in every
order of requests, answers and releases. -/
namespace TraceJvm

open OrderedMap Transition RouterVm

/-! ### The traffic with the host -/

/-- A descriptor that the host returns to a context, or that a context asks the host to close. -/
inductive HostTraffic where
  | returned (context fd : ℕ)
  | closed (context fd : ℕ)
  deriving DecidableEq

/-- The values that `applyDescriptorResponse` registers. -/
def grantedValues (request response : JsValue) : List JsValue :=
  match request, response with
  | .object fields, .object result =>
      if !fieldIs fields "service" "posix" then []
      else if ["open", "socket", "accept", "watch"].any (fieldIs fields "operation") then
        [field result "fd"]
      else if fieldIs fields "operation" "pipe" then [field result "readFd", field result "writeFd"]
      else if fieldIs fields "operation" "spawn" then
        match get result "stdio" with
        | some (.object stdio) =>
            (["stdinFd", "stdoutFd", "stderrFd"].filter fun key =>
              !(field stdio key).isUndefined).map (field stdio)
        | _ => []
      else []
  | _, _ => []

def returnedDescriptors (request response : JsValue) : List ℕ :=
  (grantedValues request response).filterMap JsValue.descriptor

def RouterLog.closes : RouterLog → Option HostTraffic
  | .sent _ c body => (closeTarget body).map (.closed c)
  | _ => none

def RouterVm.returns (s : RouterVm) : RouterCall → List HostTraffic
  | .respond i response =>
      match s.requests i with
      | some r => (returnedDescriptors r.body response).reverse.map (.returned r.context)
      | none => []
  | _ => []

structure TracedRouter where
  vm : RouterVm
  traffic : List HostTraffic

def tracedStep (s : TracedRouter) (e : RouterCall) : Option TracedRouter :=
  (routerStep s.vm e).map fun vm =>
    ⟨vm, (vm.log.take (vm.log.length - s.vm.log.length)).filterMap RouterLog.closes ++
      (s.vm.returns e ++ s.traffic)⟩

def oneMore : List ℕ → List ℕ
  | [] => []
  | n :: ns => (n + 1) :: ns

/-- The numbers of requests to close the descriptor between two returns of it and after the last
one, the newest first. -/
def closings (c fd : ℕ) : List HostTraffic → List ℕ
  | [] => []
  | e :: past =>
      if e = .returned c fd then 0 :: closings c fd past
      else if e = .closed c fd then oneMore (closings c fd past)
      else closings c fd past

def RouterVm.Owns (s : RouterVm) (c fd : ℕ) : Prop :=
  c ∈ s.contexts ∧ ∃ o token, s.objects c = some o ∧ token ∈ o.ownedDescriptors ∧
    get o.descriptors token = some fd

/-- Every descriptor that the host has returned is owned by a live context or has been asked to be
closed once. -/
def TracedRouter.Accounted (s : TracedRouter) : Prop :=
  ∀ c fd n ns, closings c fd s.traffic = n :: ns →
    (n = 1 ∨ n = 0 ∧ s.vm.Owns c fd) ∧ ∀ m ∈ ns, m = 1

/-! ### The condition -/

def RouterVm.Closing (s : RouterVm) (c token : ℕ) : Prop :=
  ∃ i r, s.requests i = some r ∧ r.context = c ∧ closeTarget r.body = some token

def RouterVm.TokensLeft (s : RouterVm) (n : ℕ) : Prop :=
  ∃ free : List ℕ, free.length = n ∧ free.Nodup ∧
    ∀ token ∈ free, 3 ≤ token ∧ token ≤ 0x3fffffff ∧ s.tokenUsed token = false

def RouterVm.ClosesOnce (s : RouterVm) (target : Option ℕ) (request : JsValue) : Prop :=
  ∀ c o token, target = some c → s.objects c = some o → closeTarget request = some token →
    token ∈ o.ownedDescriptors → ¬ s.Closing c token

/-- An answer that returns descriptors finds its context alive, is valid and can be registered. -/
def RouterVm.Registrable (s : RouterVm) (r : HostRequest) (response : JsValue) : Prop :=
  ∀ o, s.objects r.context = some o → grantedValues r.body response ≠ [] →
    r.context ∈ s.contexts ∧ ∃ raw,
      RouterVm.rawDescriptors (grantedValues r.body response) = some raw ∧
      raw.Nodup ∧ (∀ fd ∈ raw, fd ∉ o.descriptors.map Prod.snd) ∧ s.TokensLeft raw.length

def Careful (s : TracedRouter) : RouterCall → Prop
  | .createContext o => o.hostDispatchSync || s.vm.defaults.hostDispatchSync
  | .releaseContext c => ∀ o, s.vm.objects c = some o → ∀ token ∈ o.ownedDescriptors,
      ¬ s.vm.Closing c token
  | .run _ | .runEnds => True
  | .dispatchSync request => s.vm.ClosesOnce s.vm.activeContext request
  | .dispatchAsync request contextId => s.vm.ClosesOnce (s.vm.asyncTarget contextId) request
  | .respond i response => ∀ r, s.vm.requests i = some r → s.vm.Registrable r response
  | .reject i => ∀ r o token, s.vm.requests i = some r → s.vm.objects r.context = some o →
      closeTarget r.body = some token → token ∉ o.ownedDescriptors

/-! ### Tokens -/

section Tokens

variable {s : RouterVm} {first token fuel : ℕ}

theorem tokenUsed_eq_false : s.tokenUsed token = false ↔
    ∀ c ∈ s.contexts, ∀ o, s.objects c = some o → get o.descriptors token = none := by
  simp only [RouterVm.tokenUsed, List.any_eq_false]
  constructor
  · intro h c hc o ho
    simpa [ho] using h c hc
  · intro h c hc
    cases ho : s.objects c with
    | none => simp
    | some o => simp [h c hc o ho]

/-- The steps of `nextToken` from one token to another. -/
def tokenDistance (a b : ℕ) : ℕ := if a ≤ b then b - a else b + 0x3ffffffd - a

theorem nextToken_range (h : 3 ≤ token ∧ token ≤ 0x3fffffff) :
    3 ≤ RouterVm.nextToken token ∧ RouterVm.nextToken token ≤ 0x3fffffff := by
  unfold RouterVm.nextToken
  split <;> omega

theorem tokenDistance_next {free : ℕ} (hf : 3 ≤ free ∧ free ≤ 0x3fffffff)
    (ht : 3 ≤ token ∧ token ≤ 0x3fffffff) (hne : token ≠ free) :
    tokenDistance token free = tokenDistance (RouterVm.nextToken token) free + 1 := by
  unfold tokenDistance RouterVm.nextToken
  split_ifs <;> omega

theorem nextToken_ne_first {free : ℕ} (hf : 3 ≤ free ∧ free ≤ 0x3fffffff)
    (ht : 3 ≤ token ∧ token ≤ 0x3fffffff) (hne : token ≠ free)
    (hway : tokenDistance first token + tokenDistance token free = tokenDistance first free) :
    RouterVm.nextToken token ≠ first := by
  rintro rfl
  have hstep := tokenDistance_next hf ht hne
  omega

theorem tokenDistance_succ (hfirst : 3 ≤ first ∧ first ≤ 0x3fffffff)
    (ht : 3 ≤ token ∧ token ≤ 0x3fffffff) (hne : RouterVm.nextToken token ≠ first) :
    tokenDistance first (RouterVm.nextToken token) = tokenDistance first token + 1 := by
  unfold tokenDistance
  unfold RouterVm.nextToken at *
  split_ifs at * <;> omega

/-- The search finds a token where one is unused on the way. -/
theorem searchToken_isSome {free : ℕ} (hfree : s.tokenUsed free = false)
    (hf : 3 ≤ free ∧ free ≤ 0x3fffffff) (hfirst : 3 ≤ first ∧ first ≤ 0x3fffffff)
    (ht : 3 ≤ token ∧ token ≤ 0x3fffffff)
    (hway : tokenDistance first token + tokenDistance token free = tokenDistance first free)
    (hfuel : tokenDistance token free < fuel) :
    (∃ found, (RouterVm.searchToken s first fuel token).1 = some found ∧ 3 ≤ found) ∧
      3 ≤ (RouterVm.searchToken s first fuel token).2 ∧
      (RouterVm.searchToken s first fuel token).2 ≤ 0x3fffffff := by
  induction fuel generalizing token with
  | zero => omega
  | succ fuel ih =>
    have hnext := nextToken_range ht
    simp only [RouterVm.searchToken]
    split
    · exact ⟨⟨token, rfl, ht.1⟩, hnext⟩
    · rename_i hused
      have hne : token ≠ free := by
        rintro rfl
        rw [hfree] at hused
        exact hused rfl
      have hnot := nextToken_ne_first hf ht hne hway
      have hstep := tokenDistance_next hf ht hne
      have hsucc := tokenDistance_succ hfirst ht hnot
      rw [if_neg hnot]
      exact ih hnext (by omega) (by omega)

/-- A token is allocated where one is unused. -/
theorem allocateDescriptorToken_some (hcounter : 3 ≤ s.nextDescriptorToken ∧
    s.nextDescriptorToken ≤ 0x3fffffff) {free : ℕ} (hfree : s.tokenUsed free = false)
    (hf : 3 ≤ free ∧ free ≤ 0x3fffffff) :
    ∃ token next, s.allocateDescriptorToken = (some token, { s with nextDescriptorToken := next }) ∧
      s.tokenUsed token = false ∧ 3 ≤ token ∧ 3 ≤ next ∧ next ≤ 0x3fffffff := by
  have hself : tokenDistance s.nextDescriptorToken s.nextDescriptorToken = 0 := by
    simp [tokenDistance]
  obtain ⟨⟨token, htoken, hthree⟩, hnext⟩ := searchToken_isSome hfree hf
    hcounter hcounter (by rw [hself, Nat.zero_add])
    (show tokenDistance s.nextDescriptorToken free < 0x3ffffffd by
      unfold tokenDistance; split <;> omega)
  refine ⟨token, _, ?_, RouterInv.searchToken_unused htoken, hthree, hnext⟩
  rw [RouterVm.allocateDescriptorToken, htoken]

end Tokens

/-! ### Requests to close -/

theorem JsValue.descriptor_natCast {fd : ℕ} (h : fd < 2 ^ 53) :
    (JsValue.integer fd).descriptor = some fd := by
  unfold JsValue.descriptor
  dsimp only
  rw [if_pos (by omega), Int.toNat_natCast]

theorem closeTarget_closeRequest {fd : ℕ} (h : fd < 2 ^ 53) :
    closeTarget (RouterVm.closeRequest fd) = some fd := by
  have hget : get [("fd", JsValue.integer fd)] "fd" = some (.integer fd) := rfl
  unfold RouterVm.closeRequest
  rw [closeTarget_eq (show get _ "payload" = some (JsValue.object [("fd", .integer fd)]) from rfl),
    if_pos (by simp [fieldIs, OrderedMap.get]), hget, Option.bind_some, JsValue.descriptor_natCast h]

/-- A translated request closes what the token stands for. -/
theorem HostContext.translate_close {o : HostContext} {request translated : JsValue} {t : ℕ}
    (h : o.translateDescriptorCapabilities request = .ok translated)
    (hclose : closeTarget request = some t) :
    ∃ fd, get o.descriptors t = some fd ∧ (fd < 2 ^ 53 → closeTarget translated = some fd) := by
  cases request with
  | object fields =>
    simp only [translateDescriptorCapabilities] at h
    split at h
    · rename_i payload hpayload
      rw [closeTarget_eq hpayload, Option.ite_none_right_eq_some] at hclose
      obtain ⟨hop, hclose⟩ := hclose
      obtain ⟨v, hv, hdescriptor⟩ := Option.bind_eq_some_iff.mp hclose
      obtain ⟨payload₃, hbind, rfl⟩ := Except.map_eq_ok h
      obtain ⟨payload₁, h₁, hbind⟩ := Except.bind_eq_ok hbind
      obtain ⟨payload₂, h₂, h₃⟩ := Except.bind_eq_ok hbind
      obtain ⟨hfd, -⟩ := o.resolveField_spec h₁
      have hget : get payload₃ "fd" = get payload₁ "fd" := by
        rw [(o.resolveList_spec h₃).2 "fd" (by decide), (o.resolveList_spec h₂).2 "fd" (by decide)]
      rw [hv] at hfd
      cases hfirst : get payload₁ "fd" with
      | none =>
        rw [hfirst] at hfd
        cases hfd
      | some w =>
        rw [hfirst] at hfd
        obtain ⟨token, fd, htoken, hd, rfl⟩ := (List.forall₂_cons.mp hfd).1
        obtain rfl : token = t := Option.some.inj (htoken.symm.trans hdescriptor)
        refine ⟨fd, hd, fun hsmall => ?_⟩
        rw [closeTarget_eq (get_set_self _ _ _), fieldIs_set (by decide), fieldIs_set (by decide),
          if_pos hop, hget, hfirst, Option.bind_some, JsValue.descriptor_natCast hsmall]
    · rename_i hno
      unfold closeTarget RouterVm.closeToken at hclose
      dsimp only at hclose
      split at hclose
      · split at hclose
        · rename_i payload hpayload
          exact absurd hpayload (hno payload)
        · cases hclose
      · cases hclose
  | _ => cases hclose

/-! ### What becomes of the contexts -/

namespace RouterVm

variable {s : RouterVm} {c c' t fd : ℕ} {o' p : HostContext}

theorem modify_of_object (f : HostContext → HostContext) (hp : s.objects c' = some p) :
    ∃ o', (s.modify c f).objects c' = some o' := by
  unfold modify
  by_cases hc : c' = c
  · subst hc
    rw [hp]
    exact ⟨f p, Function.update_self ..⟩
  · exact ⟨p, (Function.update_of_ne hc ..).trans hp⟩

theorem deleteToken_of_object (hp : s.objects c' = some p) :
    ∃ o', (s.deleteToken c (some t)).objects c' = some o' :=
  modify_of_object _ hp

theorem grant_of_object (hp : s.objects c' = some p) :
    ∃ o', (s.grant c t fd).objects c' = some o' :=
  modify_of_object _ hp

theorem deleteToken_object (ho' : (s.deleteToken c (some t)).objects c' = some o') :
    ∃ p, s.objects c' = some p ∧ o'.dispatchSync = p.dispatchSync ∧
      o'.ownedDescriptors.Sublist p.ownedDescriptors ∧
      (∀ t', t' ∈ o'.ownedDescriptors ↔ t' ∈ p.ownedDescriptors ∧ ¬ (c' = c ∧ t' = t)) ∧
      ∀ t' fd, get o'.descriptors t' = some fd ↔
        get p.descriptors t' = some fd ∧ ¬ (c' = c ∧ t' = t) := by
  rcases modify_cases ho' with ⟨hc, ho'⟩ | ⟨rfl, p, hp, rfl⟩
  · exact ⟨o', ho', rfl, .refl _, fun t' => by simp [hc], fun t' fd => by simp [hc]⟩
  · refine ⟨p, hp, rfl, List.filter_sublist, fun t' => ?_, fun t' fd => ?_⟩
    · simp
    · rw [get_delete]
      by_cases heq : t = t'
      · simp [heq]
      · simp [heq, Ne.symm heq]

/-- A context after a descriptor has been registered under a token that it does not own. -/
theorem grant_object (htoken : ∀ p, s.objects c = some p → t ∉ p.ownedDescriptors)
    (ho' : (s.grant c t fd).objects c' = some o') :
    ∃ p, s.objects c' = some p ∧ o'.dispatchSync = p.dispatchSync ∧
      (p.ownedDescriptors.Nodup → o'.ownedDescriptors.Nodup) ∧ (c' ≠ c → o' = p) ∧
      (∀ t', t' ∈ o'.ownedDescriptors ↔ t' ∈ p.ownedDescriptors ∨ (c' = c ∧ t' = t)) ∧
      ∀ t' fd', get o'.descriptors t' = some fd' ↔
        (get p.descriptors t' = some fd' ∧ ¬ (c' = c ∧ t' = t)) ∨
          (c' = c ∧ t' = t ∧ fd' = fd) := by
  rcases modify_cases ho' with ⟨hc, ho'⟩ | ⟨rfl, p, hp, rfl⟩
  · exact ⟨o', ho', rfl, id, fun _ => rfl, fun t' => by simp [hc], fun t' fd' => by simp [hc]⟩
  · dsimp only
    rw [if_neg (htoken p hp)]
    refine ⟨p, hp, rfl, fun hnodup => ?_, fun hne => absurd rfl hne, fun t' => ?_, fun t' fd' => ?_⟩
    · refine List.nodup_append.mpr ⟨hnodup, List.nodup_singleton t, fun a ha b hb hab => ?_⟩
      exact htoken p hp (List.mem_singleton.mp hb ▸ hab ▸ ha)
    · simp
    · rw [get_set]
      by_cases htt : t = t'
      · simp [htt, eq_comm]
      · simp [htt, Ne.symm htt]

end RouterVm

/-! ### The invariant -/

/-- What is known of the contexts and of the requests in flight, where `k` counts the requests to
close. -/
structure OwnershipInv (s : RouterVm) (k : ℕ → ℕ → List ℕ) : Prop where
  counter : 3 ≤ s.nextDescriptorToken ∧ s.nextDescriptorToken ≤ 0x3fffffff
  sync : ∀ c o, s.objects c = some o → o.dispatchSync
  dead : ∀ c o, s.objects c = some o → c ∉ s.contexts →
    (∀ t, get o.descriptors t = none) ∧ o.ownedDescriptors = []
  owned : ∀ c o t, s.objects c = some o → t ∈ o.ownedDescriptors →
    3 ≤ t ∧ ∃ fd, get o.descriptors t = some fd
  held : ∀ c o t fd, s.objects c = some o → get o.descriptors t = some fd →
    fd < 2 ^ 53 ∧ (t ∈ o.ownedDescriptors ∨ t < 3)
  nodup : ∀ c o, s.objects c = some o → o.ownedDescriptors.Nodup
  once : ∀ i j r r' t, s.requests i = some r → s.requests j = some r' → r.context = r'.context →
    closeTarget r.body = some t → closeTarget r'.body = some t → 3 ≤ t → r.context ∈ s.contexts →
      i = j
  closing : ∀ i r o t, s.requests i = some r → s.objects r.context = some o →
    closeTarget r.body = some t → 3 ≤ t → r.context ∈ s.contexts → t ∈ o.ownedDescriptors
  counted : ∀ c o t fd, s.objects c = some o → t ∈ o.ownedDescriptors →
    get o.descriptors t = some fd → (s.Closing c t → ∃ ns, k c fd = 1 :: ns) ∧
      (¬ s.Closing c t → ∃ ns, k c fd = 0 :: ns)
  unowned : ∀ c o t fd, s.objects c = some o → t ∉ o.ownedDescriptors →
    get o.descriptors t = some fd → k c fd = []
  accounted : ∀ c fd n ns, k c fd = n :: ns →
    (n = 1 ∨ n = 0 ∧ s.Owns c fd) ∧ ∀ m ∈ ns, m = 1
  known : ∀ c fd, k c fd ≠ [] → c < s.nextContextId
  contexts : ∀ i r, s.requests i = some r → r.context < s.nextContextId

namespace OwnershipInv

variable {s s' : RouterVm} {k : ℕ → ℕ → List ℕ} {c i : ℕ} {o : HostContext} {r : HostRequest}

theorem init (defaults : HostOptions) : OwnershipInv (.start defaults) fun _ _ => [] where
  counter := ⟨Nat.le_refl 3, show 3 ≤ 0x3fffffff by decide⟩
  sync := nofun
  dead := nofun
  owned := nofun
  held := nofun
  nodup := nofun
  once := nofun
  closing := nofun
  counted := nofun
  unowned := nofun
  accounted := nofun
  known _ _ h := absurd rfl h
  contexts := nofun

theorem congr (h : OwnershipInv s k) (hobjects : s'.objects = s.objects)
    (hcontexts : s'.contexts = s.contexts) (hrequests : s'.requests = s.requests)
    (hcounter : s'.nextDescriptorToken = s.nextDescriptorToken)
    (hids : s'.nextContextId = s.nextContextId) : OwnershipInv s' k := by
  obtain ⟨defaults, objects, contexts, active, runs, ids, counter, requests, nextRequest, log⟩ := s'
  subst hobjects hcontexts hrequests hcounter hids
  exact { h with }

/-- A request is answered or fails, which is no request to close an owned descriptor. -/
theorem drop (h : OwnershipInv s k) (hr : s.requests i = some r)
    (hno : ∀ o t, s.objects r.context = some o → closeTarget r.body = some t →
      t ∉ o.ownedDescriptors) :
    OwnershipInv { s with requests := Function.update s.requests i none } k := by
  have hsub : ∀ {j r'}, Function.update s.requests i none j = some r' → s.requests j = some r' := by
    intro j r' hj
    rw [Function.update_apply] at hj
    split at hj
    · cases hj
    · exact hj
  have hclosing : ∀ {c o t}, s.objects c = some o → t ∈ o.ownedDescriptors →
      (({ s with requests := Function.update s.requests i none } : RouterVm).Closing c t ↔
        s.Closing c t) := by
    intro c o t ho ht
    constructor
    · rintro ⟨j, r', hj, hrest⟩
      exact ⟨j, r', hsub hj, hrest⟩
    · rintro ⟨j, r', hj, rfl, hclose⟩
      have hji : j ≠ i := by
        rintro rfl
        obtain rfl : r' = r := Option.some.inj (hj.symm.trans hr)
        exact hno o t ho hclose ht
      exact ⟨j, r', (Function.update_of_ne hji _ _).trans hj, rfl, hclose⟩
  refine ⟨h.counter, h.sync, h.dead, h.owned, h.held, h.nodup, ?_, ?_, ?_, h.unowned, h.accounted,
    h.known, fun j r' hj => h.contexts j r' (hsub hj)⟩
  · intro j j' r' r'' t hj hj'
    exact h.once j j' r' r'' t (hsub hj) (hsub hj')
  · intro j r' o' t hj
    exact h.closing j r' o' t (hsub hj)
  · intro c' o' t fd ho' ht hfd
    rw [hclosing ho' ht]
    exact h.counted c' o' t fd ho' ht hfd

/-- A request to close a descriptor is answered. -/
theorem delete (h : OwnershipInv s k) (hr : s.requests i = some r)
    (ho : s.objects r.context = some o) {t : ℕ} (hclose : closeTarget r.body = some t) :
    OwnershipInv (({ s with requests := Function.update s.requests i none } : RouterVm).deleteToken
      r.context (some t)) k := by
  have hsub : ∀ {j r'}, Function.update s.requests i none j = some r' →
      j ≠ i ∧ s.requests j = some r' := by
    intro j r' hj
    rw [Function.update_apply] at hj
    split at hj
    · cases hj
    · exact ⟨‹_›, hj⟩
  have hclosing : ∀ {c' t'}, ¬ (c' = r.context ∧ t' = t) →
      ((({ s with requests := Function.update s.requests i none } : RouterVm).deleteToken r.context
        (some t)).Closing c' t' ↔ s.Closing c' t') := by
    intro c' t' hne
    constructor
    · rintro ⟨j, r', hj, hrest⟩
      exact ⟨j, r', (hsub hj).2, hrest⟩
    · rintro ⟨j, r', hj, rfl, hclose'⟩
      have hji : j ≠ i := by
        rintro rfl
        obtain rfl : r' = r := Option.some.inj (hj.symm.trans hr)
        exact hne ⟨rfl, Option.some.inj (hclose'.symm.trans hclose)⟩
      exact ⟨j, r', (Function.update_of_ne hji _ _).trans hj, rfl, hclose'⟩
  constructor
  · exact h.counter
  · intro c' o' ho'
    obtain ⟨p, hp, hsync, -⟩ := deleteToken_object ho'
    rw [hsync]
    exact h.sync c' p hp
  · intro c' o' ho' hc
    obtain ⟨p, hp, -, hsublist, -, hget⟩ := deleteToken_object ho'
    obtain ⟨hnone, hown⟩ := h.dead c' p hp hc
    refine ⟨fun t' => ?_, List.sublist_nil.mp (hown ▸ hsublist)⟩
    by_contra hsome
    obtain ⟨fd, hfd⟩ := Option.ne_none_iff_exists'.mp hsome
    cases (hnone t').symm.trans ((hget t' fd).mp hfd).1
  · intro c' o' t' ho' ht'
    obtain ⟨p, hp, -, -, hmem, hget⟩ := deleteToken_object ho'
    obtain ⟨ht', hne⟩ := (hmem t').mp ht'
    obtain ⟨h3, fd, hfd⟩ := h.owned c' p t' hp ht'
    exact ⟨h3, fd, (hget t' fd).mpr ⟨hfd, hne⟩⟩
  · intro c' o' t' fd ho' hfd
    obtain ⟨p, hp, -, -, hmem, hget⟩ := deleteToken_object ho'
    obtain ⟨hfd, hne⟩ := (hget t' fd).mp hfd
    obtain ⟨hsmall, hown⟩ := h.held c' p t' fd hp hfd
    exact ⟨hsmall, hown.imp_left fun hown => (hmem t').mpr ⟨hown, hne⟩⟩
  · intro c' o' ho'
    obtain ⟨p, hp, -, hsublist, -⟩ := deleteToken_object ho'
    exact (h.nodup c' p hp).sublist hsublist
  · intro j j' r' r'' t' hj hj'
    exact h.once j j' r' r'' t' (hsub hj).2 (hsub hj').2
  · intro j r' o' t' hj ho' hclose' h3 hlive
    obtain ⟨p, hp, -, -, hmem, -⟩ := deleteToken_object ho'
    obtain ⟨hji, hold⟩ := hsub hj
    refine (hmem t').mpr ⟨h.closing j r' p t' hold hp hclose' h3 hlive, ?_⟩
    rintro ⟨hc, rfl⟩
    exact hji (h.once j i r' r t' hold hr hc hclose' hclose h3 hlive)
  · intro c' o' t' fd ho' ht' hfd
    obtain ⟨p, hp, -, -, hmem, hget⟩ := deleteToken_object ho'
    obtain ⟨ht', hne⟩ := (hmem t').mp ht'
    rw [hclosing hne]
    exact h.counted c' p t' fd hp ht' ((hget t' fd).mp hfd).1
  · intro c' o' t' fd ho' ht' hfd
    obtain ⟨p, hp, -, -, hmem, hget⟩ := deleteToken_object ho'
    obtain ⟨hfd, hne⟩ := (hget t' fd).mp hfd
    exact h.unowned c' p t' fd hp (fun hown => ht' ((hmem t').mpr ⟨hown, hne⟩)) hfd
  · intro c' fd n ns hk
    obtain ⟨hn, hns⟩ := h.accounted c' fd n ns hk
    refine ⟨hn.imp_right fun ⟨hzero, hc, p, t', hp, ht', hfd⟩ => ⟨hzero, hc, ?_⟩, hns⟩
    have hne : ¬ (c' = r.context ∧ t' = t) := by
      rintro ⟨rfl, rfl⟩
      obtain ⟨ns', hone⟩ := (h.counted _ p t' fd hp ht' hfd).1 ⟨i, r, hr, rfl, hclose⟩
      rw [hk, hzero] at hone
      cases hone
    obtain ⟨o', ho'⟩ := deleteToken_of_object hp
    obtain ⟨p', hp', -, -, hmem, hget⟩ := deleteToken_object ho'
    obtain rfl : p' = p := Option.some.inj (hp'.symm.trans hp)
    exact ⟨o', t', ho', (hmem t').mpr ⟨ht', hne⟩, (hget t' fd).mpr ⟨hfd, hne⟩⟩
  · exact h.known
  · exact fun j r' hj => h.contexts j r' (hsub hj).2

/-- A descriptor is registered under an unused token. -/
theorem grant (h : OwnershipInv s k) (ho : s.objects c = some o) (hc : c ∈ s.contexts)
    (hid : c < s.nextContextId) {t fd next : ℕ} (hnext : 3 ≤ next ∧ next ≤ 0x3fffffff)
    (hsmall : fd < 2 ^ 53) (hnew : ∀ t', get o.descriptors t' ≠ some fd) (h3 : 3 ≤ t)
    (hunused : s.tokenUsed t = false) :
    OwnershipInv (({ s with nextDescriptorToken := next } : RouterVm).grant c t fd)
      fun c' fd' => if c' = c ∧ fd' = fd then 0 :: k c' fd' else k c' fd' := by
  have hfree := tokenUsed_eq_false.mp hunused
  have htoken : t ∉ o.ownedDescriptors := by
    intro hmem
    obtain ⟨-, fd', hfd'⟩ := h.owned c o t ho hmem
    cases (hfree c hc o ho).symm.trans hfd'
  have howned (p : HostContext) (hp : s.objects c = some p) : t ∉ p.ownedDescriptors := by
    obtain rfl : p = o := Option.some.inj (hp.symm.trans ho)
    exact htoken
  have hobject {c' : ℕ} {o' : HostContext}
      (ho' : (({ s with nextDescriptorToken := next } : RouterVm).grant c t fd).objects c' =
        some o') := grant_object (s := { s with nextDescriptorToken := next }) howned ho'
  have hnotClosing : ¬ s.Closing c t := by
    rintro ⟨j, r', hj, rfl, hclose⟩
    exact htoken (h.closing j r' o t hj ho hclose h3 hc)
  have hother : ∀ {p t' fd'}, s.objects c = some p → get p.descriptors t' = some fd' → fd' ≠ fd := by
    rintro p t' fd' hp hget rfl
    obtain rfl : p = o := Option.some.inj (hp.symm.trans ho)
    exact hnew t' hget
  constructor
  · exact hnext
  · intro c' o' ho'
    obtain ⟨p, hp, hsync, -⟩ := hobject ho'
    rw [hsync]
    exact h.sync c' p hp
  · intro c' o' ho' hdead
    obtain ⟨p, hp, -, -, hsame, -⟩ := hobject ho'
    have hne : c' ≠ c := by
      rintro rfl
      exact hdead hc
    rw [hsame hne]
    exact h.dead c' p hp hdead
  · intro c' o' t' ho' ht'
    obtain ⟨p, hp, -, -, -, hmem, hget⟩ := hobject ho'
    rcases (hmem t').mp ht' with hold | ⟨rfl, rfl⟩
    · obtain ⟨h3', fd', hfd'⟩ := h.owned c' p t' hp hold
      refine ⟨h3', fd', (hget t' fd').mpr (.inl ⟨hfd', ?_⟩)⟩
      rintro ⟨rfl, rfl⟩
      obtain rfl : p = o := Option.some.inj (hp.symm.trans ho)
      exact htoken hold
    · exact ⟨h3, fd, (hget t' fd).mpr (.inr ⟨rfl, rfl, rfl⟩)⟩
  · intro c' o' t' fd' ho' hfd'
    obtain ⟨p, hp, -, -, -, hmem, hget⟩ := hobject ho'
    rcases (hget t' fd').mp hfd' with ⟨hold, -⟩ | ⟨rfl, rfl, rfl⟩
    · obtain ⟨hs, hown⟩ := h.held c' p t' fd' hp hold
      exact ⟨hs, hown.imp_left fun hown => (hmem t').mpr (.inl hown)⟩
    · exact ⟨hsmall, .inl ((hmem t').mpr (.inr ⟨rfl, rfl⟩))⟩
  · intro c' o' ho'
    obtain ⟨p, hp, -, hnodup, -⟩ := hobject ho'
    exact hnodup (h.nodup c' p hp)
  · exact h.once
  · intro j r' o' t' hj ho' hclose h3' hlive
    obtain ⟨p, hp, -, -, -, hmem, -⟩ := hobject ho'
    exact (hmem t').mpr (.inl (h.closing j r' p t' hj hp hclose h3' hlive))
  · intro c' o' t' fd' ho' ht' hfd'
    obtain ⟨p, hp, -, -, -, hmem, hget⟩ := hobject ho'
    rcases (hget t' fd').mp hfd' with ⟨hold, hne⟩ | ⟨rfl, rfl, rfl⟩
    · have hown : t' ∈ p.ownedDescriptors := ((hmem t').mp ht').resolve_right hne
      have hfd : ¬ (c' = c ∧ fd' = fd) := by
        rintro ⟨rfl, rfl⟩
        exact hother hp hold rfl
      rw [if_neg hfd]
      exact h.counted c' p t' fd' hp hown hold
    · rw [if_pos ⟨rfl, rfl⟩]
      exact ⟨fun hclosing => absurd hclosing hnotClosing, fun _ => ⟨_, rfl⟩⟩
  · intro c' o' t' fd' ho' ht' hfd'
    obtain ⟨p, hp, -, -, -, hmem, hget⟩ := hobject ho'
    rcases (hget t' fd').mp hfd' with ⟨hold, hne⟩ | ⟨rfl, rfl, rfl⟩
    · have hfd : ¬ (c' = c ∧ fd' = fd) := by
        rintro ⟨rfl, rfl⟩
        exact hother hp hold rfl
      rw [if_neg hfd]
      exact h.unowned c' p t' fd' hp (fun hown => ht' ((hmem t').mpr (.inl hown))) hold
    · exact absurd ((hmem t').mpr (.inr ⟨rfl, rfl⟩)) ht'
  · intro c' fd' n ns hk
    have hkeep : ∀ n', n' = 1 ∨ n' = 0 ∧ s.Owns c' fd' → n' = 1 ∨ n' = 0 ∧
        (({ s with nextDescriptorToken := next } : RouterVm).grant c t fd).Owns c' fd' := by
      intro n'
      refine .imp_right fun ⟨hzero, hlive, p, t', hp, ht', hfd'⟩ => ⟨hzero, hlive, ?_⟩
      obtain ⟨o', ho'⟩ := grant_of_object hp
      obtain ⟨p', hp', -, -, -, hmem, hget⟩ := hobject ho'
      obtain rfl : p' = p := Option.some.inj (hp'.symm.trans hp)
      refine ⟨o', t', ho', (hmem t').mpr (.inl ht'), (hget t' fd').mpr (.inl ⟨hfd', ?_⟩)⟩
      rintro ⟨rfl, rfl⟩
      obtain rfl : p' = o := Option.some.inj (hp.symm.trans ho)
      exact htoken ht'
    by_cases hfd : c' = c ∧ fd' = fd
    · obtain ⟨rfl, rfl⟩ := hfd
      rw [if_pos ⟨rfl, rfl⟩] at hk
      cases hk
      obtain ⟨o', ho'⟩ := grant_of_object ho
      obtain ⟨p, hp, -, -, -, hmem, hget⟩ := hobject ho'
      refine ⟨.inr ⟨rfl, hc, o', t, ho', (hmem t).mpr (.inr ⟨rfl, rfl⟩),
        (hget t fd').mpr (.inr ⟨rfl, rfl, rfl⟩)⟩, fun m hm => ?_⟩
      cases hold : k c' fd' with
      | nil =>
        rw [hold] at hm
        cases hm
      | cons m₀ ms =>
        obtain ⟨hm₀, hms⟩ := h.accounted c' fd' m₀ ms hold
        rw [hold] at hm
        rcases List.mem_cons.mp hm with rfl | hm
        · rcases hm₀ with hm₀ | ⟨-, -, p', t', hp', -, hfd'⟩
          · exact hm₀
          · exact absurd rfl (hother hp' hfd')
        · exact hms m hm
    · rw [if_neg hfd] at hk
      obtain ⟨hn, hns⟩ := h.accounted c' fd' n ns hk
      exact ⟨hkeep n hn, hns⟩
  · intro c' fd' hk
    by_cases hfd : c' = c ∧ fd' = fd
    · rw [hfd.1]
      exact hid
    · rw [if_neg hfd] at hk
      exact h.known c' fd' hk
  · exact h.contexts

/-- All descriptors of an answer are registered. -/
theorem registerRaw {raw : List ℕ} (h : OwnershipInv s k) (ho : s.objects c = some o)
    (hc : c ∈ s.contexts) (hid : c < s.nextContextId) (hnodup : raw.Nodup)
    (hsmall : ∀ fd ∈ raw, fd < 2 ^ 53) (hnew : ∀ fd ∈ raw, ∀ t, get o.descriptors t ≠ some fd)
    (htokens : s.TokensLeft raw.length) :
    OwnershipInv (RouterVm.registerRaw c s raw).2 (fun c' fd' =>
        if c' = c ∧ fd' ∈ raw then 0 :: k c' fd' else k c' fd') ∧
      ∃ granted : List ℕ, (RouterVm.registerRaw c s raw).2.log =
        granted.map (.granted c) ++ s.log := by
  induction raw generalizing s k o with
  | nil =>
    refine ⟨?_, [], rfl⟩
    simpa [RouterVm.registerRaw] using h
  | cons fd raw ih =>
    obtain ⟨hnot, hnodup'⟩ := List.nodup_cons.mp hnodup
    obtain ⟨free, hlength, hfree, hunused⟩ := htokens
    have hpos : 0 < free.length := by
      rw [hlength]
      exact Nat.succ_pos _
    obtain ⟨u, hu⟩ : ∃ u, u ∈ free := List.exists_mem_of_length_pos hpos
    obtain ⟨hu3, hu4, hu5⟩ := hunused u hu
    obtain ⟨t, next, halloc, hused, h3, hnext⟩ :=
      allocateDescriptorToken_some h.counter hu5 ⟨hu3, hu4⟩
    have hgrant := h.grant ho hc hid hnext (hsmall fd List.mem_cons_self)
      (hnew fd List.mem_cons_self) h3 hused
    have hobject : (RouterVm.grant { s with nextDescriptorToken := next } c t fd).objects c =
        some { o with
          descriptors := set o.descriptors t fd
          ownedDescriptors := if t ∈ o.ownedDescriptors then o.ownedDescriptors
            else o.ownedDescriptors ++ [t] } := by
      simp [RouterVm.grant, RouterVm.modify, ho]
    have hleft : (RouterVm.grant { s with nextDescriptorToken := next } c t fd).TokensLeft
        raw.length := by
      have herase : raw.length ≤ (free.erase t).length := by
        rw [List.length_erase]
        rw [List.length_cons] at hlength
        split <;> omega
      refine ⟨(free.erase t).take raw.length, ?_, ?_, fun u' hu' => ?_⟩
      · rw [List.length_take, Nat.min_eq_left herase]
      · exact (hfree.erase t).sublist (List.take_sublist _ _)
      · obtain ⟨hne, hmem⟩ := hfree.mem_erase_iff.mp (List.mem_of_mem_take hu')
        obtain ⟨hl, hg, hold⟩ := hunused u' hmem
        refine ⟨hl, hg, tokenUsed_eq_false.mpr fun c' hc' o' ho' => ?_⟩
        have hbefore := tokenUsed_eq_false.mp hold c' hc'
        by_cases heq : c' = c
        · subst heq
          cases hobject.symm.trans ho'
          rw [get_set_of_ne (Ne.symm hne)]
          exact hbefore o ho
        · exact hbefore o' ((Function.update_of_ne heq _ _).symm.trans ho')
    have hrest := ih hgrant hobject hc hid hnodup'
      (fun fd' hfd' => hsmall fd' (List.mem_cons_of_mem _ hfd')) (fun fd' hfd' t' hget => by
        rw [get_set] at hget
        split at hget
        · cases hget
          exact hnot hfd'
        · exact hnew fd' (List.mem_cons_of_mem _ hfd') t' hget) hleft
    simp only [RouterVm.registerRaw, halloc]
    obtain ⟨hinv, granted, hlog⟩ := hrest
    refine ⟨?_, granted ++ [fd], ?_⟩
    · have hcount : (fun c' fd' => if c' = c ∧ fd' ∈ fd :: raw then 0 :: k c' fd' else k c' fd') =
          fun c' fd' => if c' = c ∧ fd' ∈ raw then
            0 :: (if c' = c ∧ fd' = fd then 0 :: k c' fd' else k c' fd')
            else if c' = c ∧ fd' = fd then 0 :: k c' fd' else k c' fd' := by
        funext c' fd'
        by_cases heq : c' = c
        · by_cases hfd : fd' = fd
          · simp [heq, hfd, hnot]
          · simp [heq, hfd]
        · simp [heq]
      rw [hcount]
      exact hinv
    · rw [hlog, List.map_append, List.append_assoc]
      rfl

/-- A request goes out that closes nothing. -/
theorem send (h : OwnershipInv s k) (hnext : ∀ i r, s.requests i = some r → i < s.nextRequest)
    (hid : c < s.nextContextId) {translated request : JsValue}
    (hclose : closeTarget request = none) : OwnershipInv (s.send c translated (some request)) k := by
  have hrequest : ∀ {j r'}, (s.send c translated (some request)).requests j = some r' →
      s.requests j = some r' ∨ (r'.context = c ∧ closeTarget r'.body = none) := by
    intro j r' hj
    simp only [RouterVm.send, Function.update_apply] at hj
    split at hj
    · cases hj
      exact .inr ⟨rfl, hclose⟩
    · exact .inl hj
  have hold : ∀ {j r' t}, (s.send c translated (some request)).requests j = some r' →
      closeTarget r'.body = some t → s.requests j = some r' := by
    intro j r' t hj ht
    rcases hrequest hj with hj | ⟨-, hnone⟩
    · exact hj
    · cases hnone.symm.trans ht
  have hclosing : ∀ {c' t}, (s.send c translated (some request)).Closing c' t ↔ s.Closing c' t := by
    intro c' t
    constructor
    · rintro ⟨j, r', hj, hc', ht⟩
      exact ⟨j, r', hold hj ht, hc', ht⟩
    · rintro ⟨j, r', hj, hrest⟩
      have hne : j ≠ s.nextRequest := (hnext j r' hj).ne
      exact ⟨j, r', (Function.update_of_ne hne _ _).trans hj, hrest⟩
  refine { h with once := ?_, closing := ?_, counted := ?_, contexts := ?_ }
  · intro j j' r' r'' t hj hj' hc ht ht'
    exact h.once j j' r' r'' t (hold hj ht) (hold hj' ht') hc ht ht'
  · intro j r' o' t hj ho' ht
    exact h.closing j r' o' t (hold hj ht) ho' ht
  · intro c' o' t fd ho' ht hfd
    rw [hclosing]
    exact h.counted c' o' t fd ho' ht hfd
  · intro j r' hj
    rcases hrequest hj with hj | ⟨hc, -⟩
    · exact h.contexts j r' hj
    · rw [hc]
      exact hid

/-- A request goes out that closes a descriptor which is not being closed. -/
theorem sendClose (h : OwnershipInv s k) (hnext : ∀ i r, s.requests i = some r → i < s.nextRequest)
    (hid : c < s.nextContextId) (hinj : ∀ o, s.objects c = some o → ∀ t t' fd, get o.descriptors t =
    some fd →
      get o.descriptors t' = some fd → t = t')
    (ho : s.objects c = some o) {translated request : JsValue} {t fd : ℕ}
    (hclose : closeTarget request = some t) (hfd : get o.descriptors t = some fd)
    (honce : t ∈ o.ownedDescriptors → ¬ s.Closing c t) :
    OwnershipInv (s.send c translated (some request))
      fun c' fd' => if c' = c ∧ fd' = fd then oneMore (k c' fd') else k c' fd' := by
  have hself : (s.send c translated (some request)).requests s.nextRequest = some ⟨c, request⟩ :=
    Function.update_self ..
  have hrequest : ∀ {j r'}, (s.send c translated (some request)).requests j = some r' →
      s.requests j = some r' ∨ (j = s.nextRequest ∧ r' = ⟨c, request⟩) := by
    intro j r' hj
    simp only [RouterVm.send, Function.update_apply] at hj
    split at hj
    · exact .inr ⟨‹_›, (Option.some.inj hj).symm⟩
    · exact .inl hj
  have hclosing : ∀ {c' t'}, (s.send c translated (some request)).Closing c' t' ↔
      s.Closing c' t' ∨ (c' = c ∧ t' = t) := by
    intro c' t'
    constructor
    · rintro ⟨j, r', hj, rfl, ht'⟩
      rcases hrequest hj with hj | ⟨-, rfl⟩
      · exact .inl ⟨j, r', hj, rfl, ht'⟩
      · exact .inr ⟨rfl, Option.some.inj (ht'.symm.trans hclose)⟩
    · rintro (⟨j, r', hj, hrest⟩ | ⟨rfl, rfl⟩)
      · have hne : j ≠ s.nextRequest := (hnext j r' hj).ne
        exact ⟨j, r', (Function.update_of_ne hne _ _).trans hj, hrest⟩
      · exact ⟨_, _, hself, rfl, hclose⟩
  have howned : 3 ≤ t → t ∈ o.ownedDescriptors := by
    intro h3
    rcases (h.held c o t fd ho hfd).2 with hown | hlt
    · exact hown
    · omega
  constructor
  · exact h.counter
  · exact h.sync
  · exact h.dead
  · exact h.owned
  · exact h.held
  · exact h.nodup
  · intro j j' r' r'' t' hj hj' hc ht ht' h3 hlive
    have hnot : ∀ {j r'}, s.requests j = some r' → r'.context = c → closeTarget r'.body = some t' →
        t' ≠ t := by
      rintro j r' hj hc ht rfl
      exact honce (howned h3) ⟨j, r', hj, hc, ht⟩
    rcases hrequest hj with hj | ⟨rfl, rfl⟩ <;> rcases hrequest hj' with hj' | ⟨rfl, rfl⟩
    · exact h.once j j' r' r'' t' hj hj' hc ht ht' h3 hlive
    · exact absurd (Option.some.inj (ht'.symm.trans hclose)) (hnot hj hc ht)
    · exact absurd (Option.some.inj (ht.symm.trans hclose)) (hnot hj' hc.symm ht')
    · rfl
  · intro j r' o' t' hj ho' ht' h3 hlive
    rcases hrequest hj with hj | ⟨rfl, rfl⟩
    · exact h.closing j r' o' t' hj ho' ht' h3 hlive
    · obtain rfl : o' = o := Option.some.inj (ho'.symm.trans ho)
      obtain rfl : t' = t := Option.some.inj (ht'.symm.trans hclose)
      exact howned h3
  · intro c' o' t' fd' ho' ht' hfd'
    obtain ⟨hone, hzero⟩ := h.counted c' o' t' fd' ho' ht' hfd'
    by_cases hsame : c' = c ∧ fd' = fd
    · obtain ⟨rfl, rfl⟩ := hsame
      obtain rfl : o' = o := Option.some.inj (ho'.symm.trans ho)
      obtain rfl := hinj o' ho t' t fd' hfd' hfd
      obtain ⟨ns, hns⟩ := hzero (honce ht')
      rw [if_pos ⟨rfl, rfl⟩, hns]
      exact ⟨fun _ => ⟨ns, rfl⟩, fun hno => absurd (hclosing.mpr (.inr ⟨rfl, rfl⟩)) hno⟩
    · have hne : ¬ (c' = c ∧ t' = t) := by
        rintro ⟨rfl, rfl⟩
        obtain rfl : o' = o := Option.some.inj (ho'.symm.trans ho)
        exact hsame ⟨rfl, Option.some.inj (hfd'.symm.trans hfd)⟩
      rw [if_neg hsame, hclosing, or_iff_left hne]
      exact ⟨hone, hzero⟩
  · intro c' o' t' fd' ho' ht' hfd'
    have hnil := h.unowned c' o' t' fd' ho' ht' hfd'
    rw [hnil]
    split <;> rfl
  · intro c' fd' n ns hk
    by_cases hsame : c' = c ∧ fd' = fd
    · obtain ⟨rfl, rfl⟩ := hsame
      rw [if_pos ⟨rfl, rfl⟩] at hk
      by_cases hown : t ∈ o.ownedDescriptors
      · obtain ⟨ms, hms⟩ := (h.counted c' o t fd' ho hown hfd).2 (honce hown)
        rw [hms] at hk
        obtain ⟨rfl, rfl⟩ := List.cons.inj hk
        exact ⟨.inl rfl, (h.accounted c' fd' 0 ms hms).2⟩
      · rw [h.unowned c' o t fd' ho hown hfd] at hk
        cases hk
    · rw [if_neg hsame] at hk
      exact h.accounted c' fd' n ns hk
  · intro c' fd' hk
    apply h.known c' fd'
    rintro hnil
    rw [hnil] at hk
    split at hk <;> exact hk rfl
  · intro j r' hj
    rcases hrequest hj with hj | ⟨-, rfl⟩
    · exact h.contexts j r' hj
    · exact hid

theorem createContext (h : OwnershipInv s k) (hids : ∀ c o, s.objects c = some o →
    c < s.nextContextId)
    {options : HostOptions} (hsync : options.hostDispatchSync || s.defaults.hostDispatchSync) :
    OwnershipInv (s.createContext options) k := by
  have hobject : ∀ {c' o'}, (s.createContext options).objects c' = some o' →
      (c' ≠ s.nextContextId ∧ s.objects c' = some o') ∨
        (c' = s.nextContextId ∧ o'.dispatchSync ∧ o'.ownedDescriptors = [] ∧
          ∀ t fd, get o'.descriptors t = some fd → t < 3 ∧ fd < 3) := by
    intro c' o' ho'
    by_cases hc : c' = s.nextContextId
    · subst hc
      simp only [RouterVm.createContext, Function.update_self, Option.some.injEq] at ho'
      subst ho'
      refine .inr ⟨rfl, hsync, rfl, fun t fd hget => ?_⟩
      split at hget
      · have hmem := mem_of_get hget
        simp only [List.mem_cons, Prod.mk.injEq, List.not_mem_nil, or_false] at hmem
        omega
      · cases hget
    · exact .inl ⟨hc, (Function.update_of_ne hc _ _).symm.trans ho'⟩
  have hold : ∀ {c'}, c' ∈ (s.createContext options).contexts → c' ≠ s.nextContextId →
      c' ∈ s.contexts := by
    intro c' hc' hne
    simpa [RouterVm.createContext, hne] using hc'
  constructor
  · exact h.counter
  · intro c' o' ho'
    rcases hobject ho' with ⟨-, ho'⟩ | ⟨-, hs, -⟩
    · exact h.sync c' o' ho'
    · exact hs
  · intro c' o' ho' hdead
    have hdead' : c' ∉ s.contexts ∧ c' ≠ s.nextContextId := by
      simpa [RouterVm.createContext] using hdead
    rcases hobject ho' with ⟨-, ho'⟩ | ⟨rfl, -⟩
    · exact h.dead c' o' ho' hdead'.1
    · exact absurd rfl hdead'.2
  · intro c' o' t ho' ht
    rcases hobject ho' with ⟨-, ho'⟩ | ⟨-, -, hnil, -⟩
    · exact h.owned c' o' t ho' ht
    · rw [hnil] at ht
      cases ht
  · intro c' o' t fd ho' hfd
    rcases hobject ho' with ⟨-, ho'⟩ | ⟨-, -, -, hstandard⟩
    · exact h.held c' o' t fd ho' hfd
    · obtain ⟨ht, hfd⟩ := hstandard t fd hfd
      exact ⟨by omega, .inr ht⟩
  · intro c' o' ho'
    rcases hobject ho' with ⟨-, ho'⟩ | ⟨-, -, hnil, -⟩
    · exact h.nodup c' o' ho'
    · rw [hnil]
      exact List.nodup_nil
  · intro j j' r' r'' t hj hj' hc ht ht' h3 hl
    exact h.once j j' r' r'' t hj hj' hc ht ht' h3 (hold hl (h.contexts j r' hj).ne)
  · intro j r' o' t hj ho' ht h3 hl
    have hne := (h.contexts j r' hj).ne
    rcases hobject ho' with ⟨-, ho'⟩ | ⟨heq, -⟩
    · exact h.closing j r' o' t hj ho' ht h3 (hold hl hne)
    · exact absurd heq hne
  · intro c' o' t fd ho' ht hfd
    rcases hobject ho' with ⟨-, ho'⟩ | ⟨-, -, hnil, -⟩
    · exact h.counted c' o' t fd ho' ht hfd
    · rw [hnil] at ht
      cases ht
  · intro c' o' t fd ho' ht hfd
    rcases hobject ho' with ⟨-, ho'⟩ | ⟨rfl, -⟩
    · exact h.unowned c' o' t fd ho' ht hfd
    · by_contra hk
      exact lt_irrefl _ (h.known _ fd hk)
  · intro c' fd n ns hk
    obtain ⟨hn, hns⟩ := h.accounted c' fd n ns hk
    refine ⟨hn.imp_right ?_, hns⟩
    rintro ⟨hzero, hc, o', t, ho', hrest⟩
    refine ⟨hzero, ?_, o', t, ?_, hrest⟩
    · exact List.mem_append_left _ hc
    · exact (Function.update_of_ne (hids c' o' ho').ne _ _).trans ho'
  · exact fun c' fd hk => Nat.lt_succ_of_lt (h.known c' fd hk)
  · exact fun j r' hj => Nat.lt_succ_of_lt (h.contexts j r' hj)

/-- The requests by which a context is released. -/
theorem closeOwned_spec (descriptors : List (ℕ × ℕ)) (tokens : List ℕ)
    (hsmall : ∀ t ∈ tokens, ∀ fd, get descriptors t = some fd → fd < 2 ^ 53)
    (hnext : ∀ i r, s.requests i = some r → i < s.nextRequest) :
    (RouterVm.closeOwned c descriptors s tokens).requests = s.requests ∧
      (RouterVm.closeOwned c descriptors s tokens).objects = s.objects ∧
      (RouterVm.closeOwned c descriptors s tokens).contexts = s.contexts ∧
      (RouterVm.closeOwned c descriptors s tokens).nextDescriptorToken = s.nextDescriptorToken ∧
      (RouterVm.closeOwned c descriptors s tokens).nextContextId = s.nextContextId ∧
      ∃ recent, (RouterVm.closeOwned c descriptors s tokens).log = recent ++ s.log ∧
        recent.filterMap RouterLog.closes =
          (tokens.filterMap (get descriptors)).reverse.map (.closed c) := by
  induction tokens generalizing s with
  | nil => exact ⟨rfl, rfl, rfl, rfl, rfl, [], rfl, rfl⟩
  | cons t tokens ih =>
    have hrest : ∀ t ∈ tokens, ∀ fd, get descriptors t = some fd → fd < 2 ^ 53 :=
      fun t' ht' => hsmall t' (List.mem_cons_of_mem _ ht')
    simp only [RouterVm.closeOwned]
    split
    · rename_i hnone
      rw [List.filterMap_cons_none hnone]
      exact ih hrest hnext
    · rename_i fd hfd
      have hsame : (s.send c (RouterVm.closeRequest fd) none).requests = s.requests := by
        have hnone : s.requests s.nextRequest = none := by
          by_contra hsome
          obtain ⟨r', hr'⟩ := Option.ne_none_iff_exists'.mp hsome
          exact lt_irrefl _ (hnext _ r' hr')
        exact Function.update_eq_self_iff.mpr hnone.symm
      obtain ⟨h₁, h₂, h₃, h₄, h₅, recent, hlog, hcloses⟩ := ih
        (s := s.send c (RouterVm.closeRequest fd) none) hrest
        fun i r' hr' => Nat.lt_succ_of_lt (hnext i r' (hsame ▸ hr'))
      refine ⟨h₁.trans hsame, h₂, h₃, h₄, h₅, recent ++ [.sent s.nextRequest c
        (RouterVm.closeRequest fd)], ?_, ?_⟩
      · rw [hlog, List.append_assoc]
        rfl
      · have htarget : closeTarget (RouterVm.closeRequest fd) = some fd :=
          closeTarget_closeRequest (hsmall t List.mem_cons_self fd hfd)
        have hclose : RouterLog.closes (.sent s.nextRequest c (RouterVm.closeRequest fd)) =
            some (.closed c fd) := by
          rw [RouterLog.closes, htarget, Option.map_some]
        rw [List.filterMap_append, hcloses, List.filterMap_cons_some hfd, List.reverse_cons,
          List.map_append, List.filterMap_cons_some hclose]
        rfl

/-- A context is released none of whose descriptors is being closed. -/
theorem releaseContext (h : OwnershipInv s k)
    (hnext : ∀ i r, s.requests i = some r → i < s.nextRequest)
    (ho : s.objects c = some o) (hclosing : ∀ t ∈ o.ownedDescriptors, ¬ s.Closing c t) :
    OwnershipInv (s.releaseContext c o) (fun c' fd' => if c' = c ∧
      fd' ∈ o.ownedDescriptors.filterMap (get o.descriptors) then oneMore (k c' fd') else k c' fd') ∧
      ∃ recent, (s.releaseContext c o).log = recent ++ s.log ∧
        recent.filterMap RouterLog.closes =
          (o.ownedDescriptors.filterMap (get o.descriptors)).reverse.map (.closed c) := by
  obtain ⟨hreq, hobj, hctx, hcount, hid, recent, hlog, hcloses⟩ :=
    closeOwned_spec (c := c) o.descriptors o.ownedDescriptors
      (fun t _ fd hfd => (h.held c o t fd ho hfd).1) hnext
  have hshape : ∃ u : RouterVm, s.releaseContext c o = u ∧ u.requests = s.requests ∧
      u.objects = Function.update s.objects c (some { o with
        descriptors := [], ownedDescriptors := [] }) ∧
      u.contexts = s.contexts.filter (fun d => d ≠ c) ∧
      u.nextDescriptorToken = s.nextDescriptorToken ∧ u.nextContextId = s.nextContextId ∧
      u.log = recent ++ s.log := by
    refine ⟨_, rfl, ?_⟩
    unfold RouterVm.releaseContext RouterVm.modify
    dsimp only
    rw [if_pos (h.sync c o ho), hreq, hobj, hctx, hcount, hid, hlog, ho]
    exact ⟨rfl, rfl, rfl, rfl, rfl, rfl⟩
  obtain ⟨u, hu, hreq', hobj', hctx', hcount', hid', hlog'⟩ := hshape
  rw [hu]
  refine ⟨?_, recent, hlog', hcloses⟩
  have hobject : ∀ {c' o'}, u.objects c' = some o' →
      (c' ≠ c ∧ s.objects c' = some o') ∨
        (c' = c ∧ o' = { o with descriptors := [], ownedDescriptors := [] }) := by
    intro c' o' ho'
    rw [hobj', Function.update_apply] at ho'
    split at ho'
    · exact .inr ⟨‹_›, (Option.some.inj ho').symm⟩
    · exact .inl ⟨‹_›, ho'⟩
  have hlive : ∀ {c'}, c' ∈ u.contexts ↔ c' ∈ s.contexts ∧ c' ≠ c := by
    intro c'
    rw [hctx']
    simp
  have hclosing' : ∀ {c' t}, u.Closing c' t ↔ s.Closing c' t := by
    intro c' t
    unfold RouterVm.Closing
    rw [hreq']
  have hcounted : ∀ {fd'}, fd' ∈ o.ownedDescriptors.filterMap (get o.descriptors) →
      ∃ ns, k c fd' = 0 :: ns := by
    intro fd' hfd'
    obtain ⟨t, ht, hget⟩ := List.mem_filterMap.mp hfd'
    exact (h.counted c o t fd' ho ht hget).2 (hclosing t ht)
  constructor
  · rw [hcount']
    exact h.counter
  · intro c' o' ho'
    rcases hobject ho' with ⟨-, ho'⟩ | ⟨-, rfl⟩
    · exact h.sync c' o' ho'
    · exact h.sync c o ho
  · intro c' o' ho' hdead
    rcases hobject ho' with ⟨hne, ho'⟩ | ⟨-, rfl⟩
    · exact h.dead c' o' ho' fun hc' => hdead (hlive.mpr ⟨hc', hne⟩)
    · exact ⟨fun _ => rfl, rfl⟩
  · intro c' o' t ho' ht
    rcases hobject ho' with ⟨-, ho'⟩ | ⟨-, rfl⟩
    · exact h.owned c' o' t ho' ht
    · cases ht
  · intro c' o' t fd ho' hfd
    rcases hobject ho' with ⟨-, ho'⟩ | ⟨-, rfl⟩
    · exact h.held c' o' t fd ho' hfd
    · cases hfd
  · intro c' o' ho'
    rcases hobject ho' with ⟨-, ho'⟩ | ⟨-, rfl⟩
    · exact h.nodup c' o' ho'
    · exact List.nodup_nil
  · intro j j' r' r'' t hj hj' hc ht ht' h3 hl
    rw [hreq'] at hj hj'
    exact h.once j j' r' r'' t hj hj' hc ht ht' h3 (hlive.mp hl).1
  · intro j r' o' t hj ho' ht h3 hl
    rw [hreq'] at hj
    rcases hobject ho' with ⟨-, ho'⟩ | ⟨heq, -⟩
    · exact h.closing j r' o' t hj ho' ht h3 (hlive.mp hl).1
    · exact absurd heq (hlive.mp hl).2
  · intro c' o' t fd ho' ht hfd
    rcases hobject ho' with ⟨hne, ho'⟩ | ⟨-, rfl⟩
    · rw [hclosing', if_neg fun hsame => hne hsame.1]
      exact h.counted c' o' t fd ho' ht hfd
    · cases ht
  · intro c' o' t fd ho' ht hfd
    rcases hobject ho' with ⟨hne, ho'⟩ | ⟨-, rfl⟩
    · rw [if_neg fun hsame => hne hsame.1]
      exact h.unowned c' o' t fd ho' ht hfd
    · cases hfd
  · intro c' fd n ns hk
    by_cases hsame : c' = c ∧ fd ∈ o.ownedDescriptors.filterMap (get o.descriptors)
    · rw [if_pos hsame] at hk
      obtain ⟨rfl, hmem⟩ := hsame
      obtain ⟨ms, hms⟩ := hcounted hmem
      rw [hms] at hk
      obtain ⟨rfl, rfl⟩ := List.cons.inj hk
      exact ⟨.inl rfl, (h.accounted c' fd 0 ms hms).2⟩
    · rw [if_neg hsame] at hk
      obtain ⟨hn, hns⟩ := h.accounted c' fd n ns hk
      refine ⟨hn.imp_right fun ⟨hzero, hc', o', t, ho', ht, hfd⟩ => ⟨hzero, ?_⟩, hns⟩
      have hne : c' ≠ c := by
        rintro rfl
        obtain rfl : o' = o := Option.some.inj (ho'.symm.trans ho)
        exact hsame ⟨rfl, List.mem_filterMap.mpr ⟨t, ht, hfd⟩⟩
      refine ⟨hlive.mpr ⟨hc', hne⟩, o', t, ?_, ht, hfd⟩
      rw [hobj', Function.update_of_ne hne, ho']
  · intro c' fd hk
    rw [hid']
    apply h.known c' fd
    rintro hnil
    rw [hnil] at hk
    split at hk <;> exact hk rfl
  · rw [hreq', hid']
    exact h.contexts

end OwnershipInv

/-! ### The traffic of a step -/

section Traffic

variable {c c' fd : ℕ} {traffic : List HostTraffic} {fds : List ℕ}

/-- A run of events, each of which changes the closings of one descriptor. -/
theorem closings_each {event : ℕ → HostTraffic} {change : List ℕ → List ℕ}
    (hevent : ∀ fd₀ rest, closings c' fd (event fd₀ :: rest) =
      if c' = c ∧ fd₀ = fd then change (closings c' fd rest) else closings c' fd rest)
    (h : fds.Nodup) :
    closings c' fd (fds.map event ++ traffic) =
      if c' = c ∧ fd ∈ fds then change (closings c' fd traffic) else closings c' fd traffic := by
  induction fds with
  | nil => simp
  | cons fd₀ fds ih =>
    obtain ⟨hnot, h⟩ := List.nodup_cons.mp h
    rw [List.map_cons, List.cons_append, hevent, ih h]
    by_cases hfd : fd₀ = fd
    · subst hfd
      simp [hnot]
    · simp [hfd, Ne.symm hfd]

theorem closings_returned (h : fds.Nodup) :
    closings c' fd (fds.map (.returned c) ++ traffic) =
      if c' = c ∧ fd ∈ fds then 0 :: closings c' fd traffic else closings c' fd traffic :=
  closings_each (fun _ _ => by simp [closings, eq_comm]) h

theorem closings_closed (h : fds.Nodup) :
    closings c' fd (fds.map (.closed c) ++ traffic) =
      if c' = c ∧ fd ∈ fds then oneMore (closings c' fd traffic) else closings c' fd traffic :=
  closings_each (fun _ _ => by simp [closings, eq_comm]) h

theorem rawDescriptors_spec {values : List JsValue} {raw : List ℕ}
    (h : RouterVm.rawDescriptors values = some raw) :
    values.filterMap JsValue.descriptor = raw ∧ ∀ fd ∈ raw, fd < 2 ^ 53 := by
  induction values generalizing raw with
  | nil =>
    cases h
    exact ⟨rfl, nofun⟩
  | cons v values ih =>
    obtain ⟨fd, hfd, h⟩ := Option.bind_eq_some_iff.mp h
    obtain ⟨fds, hfds, rfl⟩ := Option.map_eq_some_iff.mp h
    obtain ⟨hmap, hsmall⟩ := ih hfds
    refine ⟨by rw [List.filterMap_cons_some hfd, hmap], fun fd' hfd' => ?_⟩
    rcases List.mem_cons.mp hfd' with rfl | hfd'
    · cases v with
      | integer n =>
        simp only [JsValue.descriptor, Option.ite_none_right_eq_some, Option.some.injEq] at hfd
        omega
      | _ => cases hfd
    · exact hsmall fd' hfd'

theorem register_nil (s : RouterVm) (c : ℕ) (o : HostContext) : (s.register c o []).2 = s := by
  simp [RouterVm.register, RouterVm.rawDescriptors, RouterVm.registerRaw]

theorem fieldIs_unique {fields : JsFields} {key a b : String} (h : fieldIs fields key a)
    (hne : a ≠ b) : fieldIs fields key b = false := by
  unfold fieldIs at h ⊢
  split at h
  · rename_i text htext
    rw [of_decide_eq_true h]
    exact decide_eq_false hne
  · cases h

theorem grantedValues_close {fields : JsFields} (h : fieldIs fields "operation" "close")
    (response : JsValue) : grantedValues (.object fields) response = [] := by
  cases response with
  | object result =>
    simp [grantedValues, fieldIs_unique h (b := "open"), fieldIs_unique h (b := "socket"),
      fieldIs_unique h (b := "accept"), fieldIs_unique h (b := "watch"),
      fieldIs_unique h (b := "pipe"), fieldIs_unique h (b := "spawn")]
  | _ => rfl

/-- The state after an answer: either a token is deleted or the returned values are registered. -/
theorem applyDescriptorResponse_state {s : RouterVm} {c : ℕ} {o : HostContext}
    (request response : JsValue) :
    (∃ t, closeTarget request = some t ∧ grantedValues request response = [] ∧
      (s.applyDescriptorResponse c o request response).2 = s.deleteToken c (some t)) ∨
    (closeTarget request = none ∧ (s.applyDescriptorResponse c o request response).2 =
      (s.register c o (grantedValues request response)).2) := by
  cases request with
  | object fields =>
    simp only [RouterVm.applyDescriptorResponse]
    split
    · rename_i hservice
      have hnone : grantedValues (.object fields) response = [] := by
        cases response with
        | object result => simp only [grantedValues, hservice, if_true]
        | _ => rfl
      refine .inr ⟨by simp_all [closeTarget], ?_⟩
      rw [hnone, register_nil]
    · rename_i hservice
      simp only [Bool.not_eq_true', Bool.not_eq_false] at hservice
      split
      · rename_i hclose
        rw [Bool.and_eq_true] at hclose
        rw [grantedValues_close hclose.1, register_nil]
        have htarget : closeTarget (.object fields) =
            (RouterVm.closeToken fields).bind JsValue.descriptor := by
          simp [closeTarget, hservice, hclose.1]
        rw [htarget]
        cases (RouterVm.closeToken fields).bind JsValue.descriptor with
        | none => exact .inr ⟨rfl, rfl⟩
        | some t => exact .inl ⟨t, rfl, rfl, rfl⟩
      · rename_i hclose
        refine .inr ⟨?_, ?_⟩
        · simp only [closeTarget, ite_eq_right_iff, Bool.and_eq_true]
          rintro ⟨-, hop⟩
          have htoken : RouterVm.closeToken fields = none := by simpa [hop] using hclose
          rw [htoken]
          rfl
        · cases response with
          | object result =>
            simp only [grantedValues, hservice, Bool.not_true, Bool.false_eq_true, if_false]
            split
            · rfl
            · split
              · rfl
              · split
                · cases hstdio : get result "stdio" with
                  | none => exact (register_nil ..).symm
                  | some v =>
                    cases v with
                    | object stdio => rfl
                    | _ => exact (register_nil ..).symm
                · exact (register_nil ..).symm
          | _ => exact (register_nil ..).symm
  | _ => exact .inr ⟨rfl, (register_nil ..).symm⟩

end Traffic

namespace OwnershipInv

variable {s : RouterVm} {k : ℕ → ℕ → List ℕ} {i : ℕ} {o : HostContext} {r : HostRequest}

/-- An answer is applied that can be registered. -/
theorem respond (h : OwnershipInv s k) (hid : ∀ c ∈ s.contexts, c < s.nextContextId)
    (hr : s.requests i = some r) (ho : s.objects r.context = some o) {response : JsValue}
    (hok : s.Registrable r response) :
    OwnershipInv ((s.answer i).applyDescriptorResponse r.context o r.body response).2
        (fun c fd => if c = r.context ∧ fd ∈ returnedDescriptors r.body response then 0 :: k c fd
          else k c fd) ∧ (returnedDescriptors r.body response).Nodup ∧
      ∃ granted : List ℕ, ((s.answer i).applyDescriptorResponse r.context o r.body response).2.log =
        granted.map (.granted r.context) ++ .answered i :: s.log := by
  rcases applyDescriptorResponse_state (s := s.answer i) (c := r.context) (o := o) r.body response
    with ⟨t, hclose, hnil, hstate⟩ | ⟨hclose, hstate⟩
  · have hreturned : returnedDescriptors r.body response = [] := by
      rw [returnedDescriptors, hnil]
      rfl
    rw [hstate, hreturned]
    refine ⟨?_, List.nodup_nil, [], rfl⟩
    simp only [List.not_mem_nil, and_false, if_false]
    exact (h.delete hr ho hclose).congr rfl rfl rfl rfl rfl
  · have hdrop : OwnershipInv (s.answer i) k := by
      refine (h.drop hr fun o t _ ht => ?_).congr rfl rfl rfl rfl rfl
      cases hclose.symm.trans ht
    rw [hstate]
    by_cases hnil : grantedValues r.body response = []
    · have hreturned : returnedDescriptors r.body response = [] := by
        rw [returnedDescriptors, hnil]
        rfl
      rw [hnil, register_nil, hreturned]
      refine ⟨?_, List.nodup_nil, [], rfl⟩
      simpa using hdrop
    · obtain ⟨hlive, raw, hraw, hnodup, hnew, htokens⟩ := hok o ho hnil
      obtain ⟨hmap, hsmall⟩ := rawDescriptors_spec hraw
      have hreturned : returnedDescriptors r.body response = raw := hmap
      have hregister : ((s.answer i).register r.context o (grantedValues r.body response)).2 =
          (RouterVm.registerRaw r.context (s.answer i) raw).2 := by
        have hfresh : ¬ (raw.any fun fd => (o.descriptors.map Prod.snd).contains fd) = true := by
          rw [List.any_eq_true]
          rintro ⟨fd, hfd, hmem⟩
          exact hnew fd hfd (List.contains_iff_mem.mp hmem)
        simp only [RouterVm.register, hraw, hnodup, not_true_eq_false, if_false, if_neg hfresh]
      rw [hregister, hreturned]
      have hget : ∀ fd ∈ raw, ∀ t, get o.descriptors t ≠ some fd := fun fd hfd t hget =>
        hnew fd hfd (List.mem_map_of_mem (mem_of_get hget))
      obtain ⟨hinv, granted, hlog⟩ := hdrop.registerRaw ho hlive (hid _ hlive) hnodup hsmall hget
        htokens
      exact ⟨hinv, hnodup, granted, hlog⟩

end OwnershipInv

structure TracedInv (s : TracedRouter) : Prop where
  router : RouterInv s.vm
  ownership : OwnershipInv s.vm fun c fd => closings c fd s.traffic

namespace TracedInv

variable {s s' : TracedRouter} {e : RouterCall}

theorem traffic_eq (hstep : tracedStep s e = some s') (recent : List RouterLog)
    (hlog : s'.vm.log = recent ++ s.vm.log) :
    s'.traffic = recent.filterMap RouterLog.closes ++ (s.vm.returns e ++ s.traffic) := by
  obtain ⟨vm, -, rfl⟩ := Option.map_eq_some_iff.mp hstep
  rw [hlog, List.length_append, Nat.add_sub_cancel, List.take_left']
  rfl

theorem silent (hstep : tracedStep s e = some s') (recent : List RouterLog)
    (hlog : s'.vm.log = recent ++ s.vm.log) (hcloses : recent.filterMap RouterLog.closes = [])
    (hreturns : s.vm.returns e = []) : s'.traffic = s.traffic := by
  rw [traffic_eq hstep recent hlog, hcloses, hreturns]
  rfl

theorem dispatch (h : TracedInv s) (hstep : tracedStep s e = some s') (hreturns : s.vm.returns e = [])
    {c : ℕ} {o : HostContext} (ho : s.vm.objects c = some o) {request : JsValue}
    (hvm : s'.vm = (s.vm.dispatch c o request).2)
    (honce : ∀ t, closeTarget request = some t → t ∈ o.ownedDescriptors → ¬ s.vm.Closing c t) :
    OwnershipInv s'.vm fun c fd => closings c fd s'.traffic := by
  have hown := h.ownership
  rw [RouterVm.dispatch] at hvm
  split at hvm
  · have htraffic : s'.traffic = s.traffic :=
      silent hstep [] (by rw [hvm]; rfl) rfl hreturns
    rw [hvm, htraffic]
    exact hown
  · rename_i translated ht
    have hlog : s'.vm.log = [.sent s.vm.nextRequest c translated] ++ s.vm.log := by
      rw [hvm]
      rfl
    have htraffic := traffic_eq hstep _ hlog
    rw [hreturns, List.nil_append] at htraffic
    rw [hvm]
    cases hclose : closeTarget request with
    | none =>
      have hnone : closeTarget translated = none := by
        by_contra hsome
        obtain ⟨fd, hfd⟩ := Option.ne_none_iff_exists'.mp hsome
        obtain ⟨t, ht', -⟩ := (o.translate_spec ht).2 fd hfd
        cases hclose.symm.trans ht'
      have hcloses : RouterLog.closes (.sent s.vm.nextRequest c translated) = none := by
        rw [RouterLog.closes, hnone, Option.map_none]
      rw [List.filterMap_cons_none hcloses] at htraffic
      rw [htraffic]
      exact hown.send h.router.requestIds (h.router.contextIds c o ho) hclose
    | some t =>
      obtain ⟨fd, hfd, htarget⟩ := HostContext.translate_close ht hclose
      have hcloses : RouterLog.closes (.sent s.vm.nextRequest c translated) =
          some (.closed c fd) := by
        rw [RouterLog.closes, htarget (hown.held c o t fd ho hfd).1, Option.map_some]
      rw [List.filterMap_cons_some hcloses] at htraffic
      have hcount : (fun c' fd' => closings c' fd' s'.traffic) = fun c' fd' =>
          if c' = c ∧ fd' = fd then oneMore (closings c' fd' s.traffic)
          else closings c' fd' s.traffic := by
        funext c' fd'
        have hone : closings c' fd' ([fd].map (.closed c) ++ s.traffic) = _ :=
          closings_closed (List.nodup_singleton fd)
        rw [htraffic]
        simpa using hone
      rw [hcount]
      exact hown.sendClose h.router.requestIds (h.router.contextIds c o ho)
        (fun o ho => h.router.injective c o ho) ho hclose hfd (honce t hclose)

theorem dispatched (h : TracedInv s) (hstep : tracedStep s e = some s')
    (hrouter : RouterInv s'.vm) (hreturns : s.vm.returns e = []) {c : ℕ} {o : HostContext}
    (ho : s.vm.objects c = some o) {request : JsValue}
    (hvm : s'.vm = (s.vm.dispatch c o request).2)
    (honce : ∀ t, closeTarget request = some t → t ∈ o.ownedDescriptors → ¬ s.vm.Closing c t) :
    TracedInv s' :=
  ⟨hrouter, h.dispatch hstep hreturns ho hvm honce⟩

theorem unchanged (h : TracedInv s) (hstep : tracedStep s e = some s') (hrouter : RouterInv s'.vm)
    (hreturns : s.vm.returns e = []) (hobjects : s'.vm.objects = s.vm.objects)
    (hcontexts : s'.vm.contexts = s.vm.contexts) (hrequests : s'.vm.requests = s.vm.requests)
    (hcounter : s'.vm.nextDescriptorToken = s.vm.nextDescriptorToken)
    (hids : s'.vm.nextContextId = s.vm.nextContextId) (hlog : s'.vm.log = s.vm.log) :
    TracedInv s' := by
  have htraffic : s'.traffic = s.traffic := silent hstep [] hlog rfl hreturns
  refine ⟨hrouter, ?_⟩
  rw [htraffic]
  exact h.ownership.congr hobjects hcontexts hrequests hcounter hids

theorem created (h : TracedInv s) {options : HostOptions}
    (hok : options.hostDispatchSync || s.vm.defaults.hostDispatchSync)
    (hstep : tracedStep s (.createContext options) = some s') (hrouter : RouterInv s'.vm) :
    TracedInv s' := by
  have hvm : s'.vm = s.vm.createContext options := by
    obtain ⟨vm, hvm, rfl⟩ := Option.map_eq_some_iff.mp hstep
    exact (Option.some.inj hvm).symm
  have htraffic : s'.traffic = s.traffic :=
    silent hstep [.created s.vm.nextContextId _] (by rw [hvm]; rfl) rfl rfl
  refine ⟨hrouter, ?_⟩
  rw [hvm, htraffic]
  exact h.ownership.createContext h.router.contextIds hok

theorem released (h : TracedInv s) {c : ℕ} (hok : Careful s (.releaseContext c))
    (hstep : tracedStep s (.releaseContext c) = some s') (hrouter : RouterInv s'.vm) :
    TracedInv s' := by
  obtain ⟨vm, hvm, hs'⟩ := Option.map_eq_some_iff.mp hstep
  obtain ⟨o, ho, rfl⟩ := Option.map_eq_some_iff.mp hvm
  have hvm' : s'.vm = s.vm.releaseContext c o := by rw [← hs']
  obtain ⟨hinv, recent, hlog, hcloses⟩ :=
    h.ownership.releaseContext h.router.requestIds ho (hok o ho)
  have hinj : (o.ownedDescriptors.filterMap (get o.descriptors)).Nodup := by
    apply (h.ownership.nodup c o ho).filterMap
    intro t t' fd ht ht'
    exact h.router.injective c o ho t t' fd ht ht'
  have htraffic := traffic_eq hstep recent (by rw [hvm', hlog])
  have hcount : (fun c' fd' => closings c' fd' s'.traffic) = fun c' fd' => if c' = c ∧
      fd' ∈ o.ownedDescriptors.filterMap (get o.descriptors) then
        oneMore (closings c' fd' s.traffic) else closings c' fd' s.traffic := by
    funext c' fd'
    rw [htraffic, hcloses]
    have hall : closings c' fd' (_ ++ s.traffic) = _ :=
      closings_closed (c := c) (List.nodup_reverse.mpr hinj)
    simp only [List.mem_reverse] at hall
    exact hall
  refine ⟨hrouter, ?_⟩
  rw [hvm', hcount]
  exact hinv

theorem answered (h : TracedInv s) {i : ℕ} {response : JsValue}
    (hok : Careful s (.respond i response)) (hstep : tracedStep s (.respond i response) = some s')
    (hrouter : RouterInv s'.vm) : TracedInv s' := by
  obtain ⟨vm, hvm, hs'⟩ := Option.map_eq_some_iff.mp hstep
  obtain ⟨r, hr, hvm⟩ := Option.bind_eq_some_iff.mp hvm
  obtain ⟨o, ho, rfl⟩ := Option.map_eq_some_iff.mp hvm
  have hvm' : s'.vm = ((s.vm.answer i).applyDescriptorResponse r.context o r.body response).2 := by
    rw [← hs']
  obtain ⟨hinv, hnodup, granted, hlog⟩ := h.ownership.respond h.router.liveIds hr ho (hok r hr)
  have htraffic := traffic_eq hstep (granted.map (.granted r.context) ++ [.answered i])
    (by rw [hvm', hlog, List.append_assoc]; rfl)
  have hsilent : (granted.map (RouterLog.granted r.context) ++
      [RouterLog.answered i]).filterMap RouterLog.closes = [] := by
    rw [List.filterMap_eq_nil_iff]
    intro e he
    rcases List.mem_append.mp he with he | he
    · obtain ⟨fd, -, rfl⟩ := List.mem_map.mp he
      rfl
    · rw [List.mem_singleton.mp he]
      rfl
  have hreturns : s.vm.returns (.respond i response) =
      (returnedDescriptors r.body response).reverse.map (.returned r.context) := by
    simp only [RouterVm.returns, hr]
  rw [hsilent, List.nil_append, hreturns] at htraffic
  have hcount : (fun c fd => closings c fd s'.traffic) = fun c fd =>
      if c = r.context ∧ fd ∈ returnedDescriptors r.body response then
        0 :: closings c fd s.traffic else closings c fd s.traffic := by
    funext c fd
    rw [htraffic]
    have hall : closings c fd (_ ++ s.traffic) = _ :=
      closings_returned (c := r.context) (List.nodup_reverse.mpr hnodup)
    simp only [List.mem_reverse] at hall
    exact hall
  refine ⟨hrouter, ?_⟩
  rw [hvm', hcount]
  exact hinv

theorem rejected (h : TracedInv s) {i : ℕ} (hok : Careful s (.reject i))
    (hstep : tracedStep s (.reject i) = some s') (hrouter : RouterInv s'.vm) : TracedInv s' := by
  obtain ⟨vm, hvm, hs'⟩ := Option.map_eq_some_iff.mp hstep
  obtain ⟨r, hr, rfl⟩ := Option.map_eq_some_iff.mp hvm
  have htraffic : s'.traffic = s.traffic :=
    silent hstep [] (by rw [← hs']; rfl) rfl rfl
  refine ⟨hrouter, ?_⟩
  rw [htraffic, ← hs']
  exact h.ownership.drop hr fun o t ho ht => hok r o t hr ho ht

theorem step (h : TracedInv s) (hok : Careful s e) (hstep : tracedStep s e = some s') :
    TracedInv s' := by
  obtain ⟨vm, hvm, hs'⟩ := Option.map_eq_some_iff.mp hstep
  have hvm' : s'.vm = vm := by rw [← hs']
  have hrouter : RouterInv s'.vm := hvm' ▸ h.router.step hvm
  have hsame : s.vm.returns e = [] → vm = s.vm → TracedInv s' := by
    intro hreturns heq
    rw [heq] at hvm'
    refine h.unchanged hstep hrouter hreturns ?_ ?_ ?_ ?_ ?_ ?_ <;> rw [hvm']
  cases e with
  | createContext options => exact h.created hok hstep hrouter
  | releaseContext c => exact h.released hok hstep hrouter
  | run c =>
    obtain ⟨o, -, rfl⟩ := Option.map_eq_some_iff.mp hvm
    refine h.unchanged hstep hrouter rfl ?_ ?_ ?_ ?_ ?_ ?_ <;> rw [hvm']
  | runEnds =>
    simp only [routerStep] at hvm
    split at hvm
    · cases hvm
    · cases hvm
      refine h.unchanged hstep hrouter rfl ?_ ?_ ?_ ?_ ?_ ?_ <;> rw [hvm']
  | dispatchSync request =>
    cases hvm
    have hshape : (s.vm.dispatchSync request).2 = s.vm ∨ ∃ c o, s.vm.activeContext = some c ∧
        s.vm.objects c = some o ∧
          (s.vm.dispatchSync request).2 = (s.vm.dispatch c o request).2 := by
      unfold RouterVm.dispatchSync
      split
      · exact .inl rfl
      · rename_i c hc
        split
        · exact .inl rfl
        · rename_i o ho
          split
          · exact .inr ⟨c, o, hc, ho, rfl⟩
          · exact .inl rfl
    rcases hshape with heq | ⟨c, o, hc, ho, heq⟩
    · exact hsame rfl heq
    · exact h.dispatched hstep hrouter rfl ho (hvm'.trans heq) fun t ht hown =>
        hok c o t hc ho ht hown
  | dispatchAsync request contextId =>
    cases hvm
    have hshape : (s.vm.dispatchAsync request contextId).2 = s.vm ∨ ∃ c o,
        s.vm.asyncTarget contextId = some c ∧ s.vm.objects c = some o ∧
          (s.vm.dispatchAsync request contextId).2 = (s.vm.dispatch c o request).2 := by
      unfold RouterVm.dispatchAsync
      split
      · exact .inl rfl
      · rename_i c hc
        split
        · exact .inl rfl
        · rename_i o ho
          split
          · exact .inr ⟨c, o, hc, ho, rfl⟩
          · exact .inl rfl
    rcases hshape with heq | ⟨c, o, hc, ho, heq⟩
    · exact hsame rfl heq
    · exact h.dispatched hstep hrouter rfl ho (hvm'.trans heq) fun t ht hown =>
        hok c o t hc ho ht hown
  | respond i response => exact h.answered hok hstep hrouter
  | reject i => exact h.rejected hok hstep hrouter

end TracedInv

/-- In a run of careful calls no descriptor is lost and none is closed twice. -/
theorem router_accounts_descriptors (defaults : HostOptions) {s : TracedRouter}
    (hs : Runs tracedStep Careful ⟨.start defaults, []⟩ s) : s.Accounted := by
  have h : TracedInv s := hs.invariant TracedInv ⟨.init defaults, .init defaults⟩
    fun _ _ _ h hok hstep => h.step hok hstep
  exact h.ownership.accounted

def openRequest : JsValue := posixRequest "open" [("path", .string "/workspace/input.txt")]

/-- A file is opened, and its context is released. -/
theorem router_accounts_descriptors_released :
    ∃ s, Runs tracedStep Careful ⟨.start ⟨true, true, none⟩, []⟩ s ∧
      s.traffic = [.closed 1 7, .returned 1 7] ∧ s.Accounted := by
  have hrun : ∃ s, Runs tracedStep Careful ⟨.start ⟨true, true, none⟩, []⟩ s ∧
      s.traffic = [.closed 1 7, .returned 1 7] := by
    refine ⟨_, .tail (a := RouterCall.releaseContext 1)
      (.tail (a := RouterCall.respond 0 (.object [("fd", .integer 7)]))
        (.tail (a := RouterCall.dispatchSync openRequest)
          (.tail (a := RouterCall.run 1)
            (.tail (a := RouterCall.createContext ⟨false, false, none⟩) .refl rfl rfl)
            trivial rfl) ?_ rfl) ?_ rfl) ?_ rfl, rfl⟩
    · rintro c o token - - hclose
      cases hclose
    · rintro r hr o ho -
      cases hr
      cases ho
      refine ⟨List.mem_singleton.mpr rfl, [7], rfl, by decide, by decide, [3], rfl, by decide, ?_⟩
      intro token htoken
      rw [List.mem_singleton.mp htoken]
      decide
    · rintro o - token - ⟨i, r, hr, -⟩
      change Function.update (Function.update (fun _ => none) 0 (some ⟨1, openRequest⟩)) 0 none i =
        some r at hr
      rw [Function.update_idem, Function.update_apply] at hr
      split at hr <;> cases hr
  obtain ⟨s, hs, htraffic⟩ := hrun
  exact ⟨s, hs, htraffic, router_accounts_descriptors _ hs⟩

/-- A file is opened asynchronously, and the context is released before the host answers. Nobody
closes the descriptor. -/
theorem router_loses_descriptor :
    ∃ s, run tracedStep ⟨.start ⟨true, true, none⟩, []⟩
      [.createContext ⟨false, false, none⟩, .dispatchAsync openRequest (some 1), .releaseContext 1,
        .respond 0 (.object [("fd", .integer 7)])] = some s ∧
      s.traffic = [.returned 1 7] ∧ ¬ s.Accounted := by
  refine ⟨_, rfl, rfl, fun h => ?_⟩
  obtain ⟨hone | ⟨-, hlive, -⟩, -⟩ := h 1 7 0 [] rfl
  · cases hone
  · cases hlive

end TraceJvm
