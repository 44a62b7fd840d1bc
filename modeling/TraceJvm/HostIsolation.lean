import TraceJvm.HostRouter
import Mathlib.Data.List.Forall2
import Mathlib.Order.Nat

/-! Isolation of the contexts of the router: in every order of calls and answers a context reaches
only host descriptors that an answer has given to it and that it has not closed since. -/
namespace TraceJvm

open OrderedMap Transition

/-! ### What a request names -/

def namedItems (key : String) : List JsValue → List JsValue
  | [] => []
  | .object fields :: xs => (get fields key).toList ++ namedItems key xs
  | _ :: xs => namedItems key xs

def namedIn (list key : String) (fields : JsFields) : List JsValue :=
  match get fields list with
  | some (.array xs) => namedItems key xs
  | _ => []

/-- The values at `payload.fd`, `payload.entries[].fd` and
`payload.descriptorMappings[].parentFd`. -/
def namedDescriptors : JsValue → List JsValue
  | .object fields =>
      match get fields "payload" with
      | some (.object payload) =>
          (get payload "fd").toList ++ namedIn "entries" "fd" payload ++
            namedIn "descriptorMappings" "parentFd" payload
      | _ => []
  | _ => []

/-- The descriptor of a `close` request to the service `posix`. -/
def closeTarget : JsValue → Option ℕ
  | .object fields =>
      if fieldIs fields "service" "posix" && fieldIs fields "operation" "close" then
        (RouterVm.closeToken fields).bind JsValue.descriptor
      else none
  | _ => none

def RouterLog.Gives (e : RouterLog) (c fd : ℕ) : Prop :=
  e = .granted c fd ∨ e = .created c true ∧ fd ≤ 2

/-- The host descriptor was given to the context, and no `close` of it that the context has sent
since has been answered. -/
def Held (log : List RouterLog) (c fd : ℕ) : Prop :=
  ∃ recent e past, log = recent ++ e :: past ∧ e.Gives c fd ∧
    ∀ i body, .sent i c body ∈ recent → closeTarget body = some fd → .answered i ∉ log

def HostContext.OwnsAll (o : HostContext) (request : JsValue) : Prop :=
  ∀ v ∈ namedDescriptors request, ∃ token fd : ℕ,
    v = .integer token ∧ get o.descriptors token = some fd

structure RouterVm.Isolated (s : RouterVm) : Prop where
  injective : ∀ c o, s.objects c = some o → ∀ token token' fd,
    get o.descriptors token = some fd → get o.descriptors token' = some fd → token = token'
  disjoint : ∀ c ∈ s.contexts, ∀ c' ∈ s.contexts, c ≠ c' → ∀ o o', s.objects c = some o →
    s.objects c' = some o' → ∀ token ≥ 3, get o.descriptors token ≠ none →
      get o'.descriptors token = none
  outgoing : ∀ recent i c body past, s.log = recent ++ .sent i c body :: past →
    ∀ v ∈ namedDescriptors body, ∃ fd : ℕ, v = .integer fd ∧ Held past c fd
  refusedSync : ∀ request c o, s.activeContext = some c → s.objects c = some o →
    ¬ o.OwnsAll request → ∃ e, s.dispatchSync request = (.error e, s)
  refusedAsync : ∀ request contextId c o, s.asyncTarget contextId = some c →
    s.objects c = some o → ¬ o.OwnsAll request →
      ∃ e, s.dispatchAsync request contextId = (.error e, s)

/-! ### Translation -/

section Translation

variable {o : HostContext}

variable {v : JsValue}

theorem JsValue.descriptor_eq_some {n : ℕ} (h : v.descriptor = some n) : v = .integer n := by
  cases v with
  | integer z =>
    simp only [JsValue.descriptor, Option.ite_none_right_eq_some, Option.some.injEq] at h
    obtain ⟨⟨h0, -⟩, rfl⟩ := h
    rw [Int.toNat_of_nonneg h0]
  | _ => cases h

/-- The second value is the host descriptor of the token that the first one names. -/
def HostContext.Resolves (o : HostContext) (v w : JsValue) : Prop :=
  ∃ token fd : ℕ, v.descriptor = some token ∧ get o.descriptors token = some fd ∧ w = .integer fd

theorem HostContext.resolve_eq_ok {fd : ℕ} (h : o.resolve v = .ok fd) :
    o.Resolves v (.integer fd) := by
  unfold resolve at h
  split at h
  · rename_i fd' hfd
    obtain rfl : fd' = fd := Except.ok.inj h
    obtain ⟨token, htoken, hget⟩ := Option.bind_eq_some_iff.mp hfd
    exact ⟨token, fd', htoken, hget, rfl⟩
  · cases h

theorem Except.map_eq_ok {ε α β : Type*} {x : Except ε α} {f : α → β} {b : β}
    (h : x.map f = .ok b) : ∃ a, x = .ok a ∧ f a = b := by
  cases x with
  | error e => cases h
  | ok a => exact ⟨a, rfl, Except.ok.inj h⟩

theorem Except.bind_eq_ok {ε α β : Type*} {x : Except ε α} {f : α → Except ε β} {b : β}
    (h : x.bind f = .ok b) : ∃ a, x = .ok a ∧ f a = .ok b := by
  cases x with
  | error e => cases h
  | ok a => exact ⟨a, rfl, h⟩

variable {fields : JsFields} {key : String}

theorem HostContext.resolveField_spec {fields' : JsFields}
    (h : o.resolveField key fields = .ok fields') :
    List.Forall₂ o.Resolves (get fields key).toList (get fields' key).toList ∧
      ∀ k, k ≠ key → get fields' k = get fields k := by
  unfold resolveField at h
  split at h
  · rename_i hnone
    cases h
    rw [hnone]
    exact ⟨.nil, fun _ _ => rfl⟩
  · rename_i v hv
    obtain ⟨fd, hfd, rfl⟩ := Except.map_eq_ok h
    rw [hv, get_set_self]
    exact ⟨.cons (o.resolve_eq_ok hfd) .nil, fun k hk => get_set_of_ne hk.symm⟩

theorem HostContext.resolveItems_spec {xs ys : List JsValue} (h : o.resolveItems key xs = .ok ys) :
    List.Forall₂ o.Resolves (namedItems key xs) (namedItems key ys) := by
  induction xs generalizing ys with
  | nil =>
    cases h
    exact .nil
  | cons x xs ih =>
    obtain ⟨y, hy, h⟩ := Except.bind_eq_ok h
    obtain ⟨zs, hzs, rfl⟩ := Except.map_eq_ok h
    have hrest := ih hzs
    cases x with
    | object fields =>
      obtain ⟨fields', hf, rfl⟩ := Except.map_eq_ok hy
      exact List.rel_append (o.resolveField_spec hf).1 hrest
    | _ =>
      cases hy
      exact hrest

theorem HostContext.resolveList_spec {list : String} {fields' : JsFields}
    (h : o.resolveList list key fields = .ok fields') :
    List.Forall₂ o.Resolves (namedIn list key fields) (namedIn list key fields') ∧
      ∀ k, k ≠ list → get fields' k = get fields k := by
  unfold resolveList at h
  split at h
  · rename_i xs hxs
    obtain ⟨ys, hys, rfl⟩ := Except.map_eq_ok h
    refine ⟨?_, fun k hk => get_set_of_ne hk.symm⟩
    simp only [namedIn, hxs, get_set_self]
    exact o.resolveItems_spec hys
  · rename_i hno
    cases h
    refine ⟨?_, fun _ _ => rfl⟩
    have hnil : namedIn list key fields = [] := by
      unfold namedIn
      split
      · rename_i xs hxs
        exact absurd hxs (hno xs)
      · rfl
    rw [hnil]
    exact .nil

theorem exists_of_mem_left {α β : Type*} {R : α → β → Prop} {xs : List α} {ys : List β}
    (h : List.Forall₂ R xs ys) {x : α} (hx : x ∈ xs) : ∃ y ∈ ys, R x y := by
  induction h with
  | nil => cases hx
  | cons hR _ ih =>
    rcases List.mem_cons.mp hx with rfl | hx
    · exact ⟨_, List.mem_cons_self, hR⟩
    · obtain ⟨y, hy, hR⟩ := ih hx
      exact ⟨y, List.mem_cons_of_mem _ hy, hR⟩

theorem exists_of_mem_right {α β : Type*} {R : α → β → Prop} {xs : List α} {ys : List β}
    (h : List.Forall₂ R xs ys) {y : β} (hy : y ∈ ys) : ∃ x ∈ xs, R x y := by
  obtain ⟨x, hx, hR⟩ := exists_of_mem_left h.flip hy
  exact ⟨x, hx, hR⟩

theorem fieldIs_set {k text : String} (h : key ≠ k) :
    fieldIs (set fields key v) k text = fieldIs fields k text := by
  unfold fieldIs
  rw [get_set_of_ne h]

theorem closeTarget_eq {payload : JsFields} (h : get fields "payload" = some (.object payload)) :
    closeTarget (.object fields) =
      if fieldIs fields "service" "posix" && fieldIs fields "operation" "close" then
        (get payload "fd").bind JsValue.descriptor else none := by
  have htoken : (RouterVm.closeToken fields).bind JsValue.descriptor =
      (get payload "fd").bind JsValue.descriptor := by
    unfold RouterVm.closeToken
    rw [h]
    dsimp only
    cases get payload "fd" with
    | none => rfl
    | some v => cases v <;> rfl
  unfold closeTarget
  dsimp only
  rw [htoken]

/-- A translated request names the host descriptors of the tokens that the request names, and
closes what the request closes. -/
theorem HostContext.translate_spec {request translated : JsValue}
    (h : o.translateDescriptorCapabilities request = .ok translated) :
    List.Forall₂ o.Resolves (namedDescriptors request) (namedDescriptors translated) ∧
      ∀ fd, closeTarget translated = some fd →
        ∃ token, closeTarget request = some token ∧ get o.descriptors token = some fd := by
  have hsame : ∀ r, namedDescriptors r = [] → closeTarget r = none →
      List.Forall₂ o.Resolves (namedDescriptors r) (namedDescriptors r) ∧
      ∀ fd, closeTarget r = some fd →
        ∃ token, closeTarget r = some token ∧ get o.descriptors token = some fd := by
    intro r hnil hclose
    rw [hnil, hclose]
    exact ⟨.nil, nofun⟩
  cases request with
  | object fields =>
    simp only [translateDescriptorCapabilities] at h
    split at h
    · rename_i payload hpayload
      obtain ⟨payload₃, hbind, rfl⟩ := Except.map_eq_ok h
      obtain ⟨payload₁, h₁, hbind⟩ := Except.bind_eq_ok hbind
      obtain ⟨payload₂, h₂, h₃⟩ := Except.bind_eq_ok hbind
      obtain ⟨hfd, hkeep₁⟩ := o.resolveField_spec h₁
      obtain ⟨hentries, hkeep₂⟩ := o.resolveList_spec h₂
      obtain ⟨hmappings, hkeep₃⟩ := o.resolveList_spec h₃
      have hget : get payload₃ "fd" = get payload₁ "fd" := by
        rw [hkeep₃ "fd" (by decide), hkeep₂ "fd" (by decide)]
      have hin : ∀ {a b : JsFields} {list : String} (key : String), get a list = get b list →
          namedIn list key a = namedIn list key b := by
        intro a b list key hab
        unfold namedIn
        rw [hab]
      refine ⟨?_, fun fd hclose => ?_⟩
      · simp only [namedDescriptors, hpayload, get_set_self, hget]
        refine List.rel_append (List.rel_append hfd ?_) ?_
        · rw [hin "fd" (hkeep₃ "entries" (by decide)), ← hin "fd" (hkeep₁ "entries" (by decide))]
          exact hentries
        · rw [← hin "parentFd" (hkeep₁ "descriptorMappings" (by decide)),
            ← hin "parentFd" (hkeep₂ "descriptorMappings" (by decide))]
          exact hmappings
      · rw [closeTarget_eq (get_set_self _ _ _), fieldIs_set (by decide), fieldIs_set (by decide),
          hget, Option.ite_none_right_eq_some] at hclose
        obtain ⟨hop, hclose⟩ := hclose
        rw [closeTarget_eq hpayload, if_pos hop]
        obtain ⟨w, hw, hwfd⟩ := Option.bind_eq_some_iff.mp hclose
        rw [hw] at hfd
        obtain ⟨v, hv, hR⟩ := exists_of_mem_right hfd (List.mem_singleton.mpr rfl)
        obtain ⟨token, fd', hdesc, hgetd, rfl⟩ := hR
        have hcast : (fd' : ℤ) = fd := JsValue.integer.inj (JsValue.descriptor_eq_some hwfd)
        obtain rfl : fd' = fd := by omega
        refine ⟨token, ?_, hgetd⟩
        rw [Option.mem_toList.mp hv]
        exact hdesc
    · rename_i hno
      cases h
      apply hsame
      · unfold namedDescriptors
        dsimp only
        split
        · rename_i payload hpayload
          exact absurd hpayload (hno payload)
        · rfl
      · unfold closeTarget RouterVm.closeToken
        dsimp only
        split
        · split
          · rename_i payload hpayload
            exact absurd hpayload (hno payload)
          · rfl
        · rfl
  | _ =>
    cases h
    exact hsame _ rfl rfl

theorem HostContext.translate_refuses {request : JsValue} (h : ¬ o.OwnsAll request) :
    ∃ e, o.translateDescriptorCapabilities request = .error e := by
  cases ht : o.translateDescriptorCapabilities request with
  | error e => exact ⟨e, rfl⟩
  | ok translated =>
    refine absurd (fun v hv => ?_) h
    obtain ⟨w, -, token, fd, hdesc, hget, -⟩ :=
      exists_of_mem_left (o.translate_spec ht).1 hv
    exact ⟨token, fd, JsValue.descriptor_eq_some hdesc, hget⟩

end Translation

/-! ### The invariant -/

/-- The token holds the host descriptor: no `close` of it that the context has sent since it was
given has been answered, and those in flight name this token. -/
def HeldAs (s : RouterVm) (c token fd : ℕ) : Prop :=
  ∃ recent e past, s.log = recent ++ e :: past ∧ e.Gives c fd ∧
    ∀ i body, .sent i c body ∈ recent → closeTarget body = some fd → .answered i ∉ s.log ∧
      ∀ r, s.requests i = some r → r.context = c ∧ closeTarget r.body = some token

theorem HeldAs.held {s : RouterVm} {c token fd : ℕ} (h : HeldAs s c token fd) :
    Held s.log c fd := by
  obtain ⟨recent, e, past, hlog, hgives, hclosed⟩ := h
  exact ⟨recent, e, past, hlog, hgives, fun i body hs hc => (hclosed i body hs hc).1⟩

theorem HeldAs.cons {s s' : RouterVm} {c token fd : ℕ} {e : RouterLog}
    (h : HeldAs s c token fd) (hlog : s'.log = e :: s.log) (hrequests : s'.requests = s.requests)
    (hsent : ∀ i c b, e ≠ .sent i c b) (hans : ∀ i, e ≠ .answered i) :
    HeldAs s' c token fd := by
  obtain ⟨recent, g, past, hdec, hgives, hclosed⟩ := h
  refine ⟨e :: recent, g, past, ?_, hgives, fun i b hs hc => ?_⟩
  · rw [hlog, hdec]
    rfl
  · rcases List.mem_cons.mp hs with heq | hs
    · exact absurd heq.symm (hsent i c b)
    · obtain ⟨hnot, hpending⟩ := hclosed i b hs hc
      rw [hrequests, hlog]
      refine ⟨fun hmem => ?_, hpending⟩
      rcases List.mem_cons.mp hmem with heq | hmem
      · exact hans i heq.symm
      · exact hnot hmem

structure RouterInv (s : RouterVm) : Prop where
  sentIds : ∀ i c body, .sent i c body ∈ s.log → i < s.nextRequest
  answeredIds : ∀ i, .answered i ∈ s.log → i < s.nextRequest
  requestIds : ∀ i r, s.requests i = some r → i < s.nextRequest
  contextIds : ∀ c o, s.objects c = some o → c < s.nextContextId
  liveIds : ∀ c ∈ s.contexts, c < s.nextContextId
  injective : ∀ c o, s.objects c = some o → ∀ token token' fd,
    get o.descriptors token = some fd → get o.descriptors token' = some fd → token = token'
  disjoint : ∀ c ∈ s.contexts, ∀ c' ∈ s.contexts, c ≠ c' → ∀ o o', s.objects c = some o →
    s.objects c' = some o' → ∀ token ≥ 3, get o.descriptors token ≠ none →
      get o'.descriptors token = none
  held : ∀ c o token fd, s.objects c = some o → get o.descriptors token = some fd →
    HeldAs s c token fd
  outgoing : ∀ recent i c body past, s.log = recent ++ .sent i c body :: past →
    ∀ v ∈ namedDescriptors body, ∃ fd : ℕ, v = .integer fd ∧ Held past c fd

theorem RouterVm.modify_cases {s : RouterVm} {c c' : ℕ} {f : HostContext → HostContext}
    {o' : HostContext} (h : (s.modify c f).objects c' = some o') :
    c' ≠ c ∧ s.objects c' = some o' ∨ c' = c ∧ ∃ p, s.objects c = some p ∧ o' = f p := by
  have hobjects : (s.modify c f).objects c' = if c' = c then (s.objects c).map f else s.objects c' :=
    Function.update_apply ..
  rw [hobjects] at h
  split at h
  · rename_i hc
    obtain ⟨p, hp, hf⟩ := Option.map_eq_some_iff.mp h
    exact .inr ⟨hc, p, hp, hf.symm⟩
  · rename_i hc
    exact .inl ⟨hc, h⟩

namespace RouterInv

variable {s s' : RouterVm} {c : ℕ} {o : HostContext}

theorem init (defaults : HostOptions) : RouterInv (.start defaults) where
  sentIds := nofun
  answeredIds := nofun
  requestIds := nofun
  contextIds := nofun
  liveIds := nofun
  injective := nofun
  disjoint := nofun
  held := nofun
  outgoing := by
    intro recent i c body past h
    simp [RouterVm.start] at h

/-- Fewer tokens, live contexts and requests in flight. -/
theorem shrink (h : RouterInv s) (hlog : s'.log = s.log) (hnext : s'.nextRequest = s.nextRequest)
    (hids : s'.nextContextId = s.nextContextId)
    (hrequests : ∀ i r, s'.requests i = some r → s.requests i = some r)
    (hlive : ∀ c ∈ s'.contexts, c ∈ s.contexts)
    (hobjects : ∀ c o', s'.objects c = some o' → ∃ o, s.objects c = some o ∧
      ∀ token fd, get o'.descriptors token = some fd → get o.descriptors token = some fd) :
    RouterInv s' where
  sentIds i c body hs := by
    rw [hnext]
    rw [hlog] at hs
    exact h.sentIds i c body hs
  answeredIds i hi := by
    rw [hnext]
    rw [hlog] at hi
    exact h.answeredIds i hi
  requestIds i r hr := by
    rw [hnext]
    exact h.requestIds i r (hrequests i r hr)
  contextIds c o' ho' := by
    obtain ⟨o, ho, -⟩ := hobjects c o' ho'
    rw [hids]
    exact h.contextIds c o ho
  liveIds c hc := by
    rw [hids]
    exact h.liveIds c (hlive c hc)
  injective c o' ho' token token' fd ht ht' := by
    obtain ⟨o, ho, hsub⟩ := hobjects c o' ho'
    exact h.injective c o ho token token' fd (hsub _ _ ht) (hsub _ _ ht')
  disjoint c hc c' hc' hne o₁ o₂ ho₁ ho₂ token htoken hget := by
    obtain ⟨p₁, hp₁, hsub₁⟩ := hobjects c o₁ ho₁
    obtain ⟨p₂, hp₂, hsub₂⟩ := hobjects c' o₂ ho₂
    obtain ⟨fd, hfd⟩ := Option.ne_none_iff_exists'.mp hget
    have hnone := h.disjoint c (hlive c hc) c' (hlive c' hc') hne p₁ p₂ hp₁ hp₂ token htoken
      (by rw [hsub₁ token fd hfd]; simp)
    by_contra hsome
    obtain ⟨fd', hfd'⟩ := Option.ne_none_iff_exists'.mp hsome
    rw [hsub₂ token fd' hfd'] at hnone
    cases hnone
  held c o' token fd ho' hget := by
    obtain ⟨o, ho, hsub⟩ := hobjects c o' ho'
    obtain ⟨recent, e, past, hdec, hgives, hclosed⟩ := h.held c o token fd ho (hsub _ _ hget)
    refine ⟨recent, e, past, hlog.trans hdec, hgives, fun i body hs hc => ?_⟩
    obtain ⟨hans, hpending⟩ := hclosed i body hs hc
    rw [hlog]
    exact ⟨hans, fun r hr => hpending r (hrequests i r hr)⟩
  outgoing recent i c body past hdec := h.outgoing recent i c body past (hlog ▸ hdec)

theorem outgoing_cons (h : RouterInv s) {e : RouterLog}
    (he : ∀ i c body, e = .sent i c body →
      ∀ v ∈ namedDescriptors body, ∃ fd : ℕ, v = .integer fd ∧ Held s.log c fd)
    {recent past : List RouterLog} {i c : ℕ} {body : JsValue}
    (hdec : e :: s.log = recent ++ .sent i c body :: past) :
    ∀ v ∈ namedDescriptors body, ∃ fd : ℕ, v = .integer fd ∧ Held past c fd := by
  cases recent with
  | nil =>
    cases hdec
    exact he i c body rfl
  | cons e' recent =>
    obtain ⟨-, hdec⟩ := List.cons.inj hdec
    exact h.outgoing recent i c body past hdec

/-- A request that names descriptors of its context reaches the host. -/
theorem send (h : RouterInv s) (ho : s.objects c = some o) {translated : JsValue}
    {body : Option JsValue}
    (hnamed : ∀ v ∈ namedDescriptors translated, ∃ token fd : ℕ,
      v = .integer fd ∧ get o.descriptors token = some fd)
    (hclose : ∀ b, body = some b → ∀ fd, closeTarget translated = some fd →
      ∃ token, closeTarget b = some token ∧ get o.descriptors token = some fd) :
    RouterInv (s.send c translated body) := by
  have hfresh : .answered s.nextRequest ∉ s.log := fun hi => lt_irrefl _ (h.answeredIds _ hi)
  constructor
  · intro i c' b hs
    rcases List.mem_cons.mp hs with heq | hs
    · cases heq
      exact Nat.lt_succ_self _
    · exact Nat.lt_succ_of_lt (h.sentIds i c' b hs)
  · intro i hi
    rcases List.mem_cons.mp hi with heq | hi
    · cases heq
    · exact Nat.lt_succ_of_lt (h.answeredIds i hi)
  · intro i r hr
    by_cases hi : i = s.nextRequest
    · subst hi
      exact Nat.lt_succ_self _
    · simp only [RouterVm.send, Function.update_of_ne hi] at hr
      exact Nat.lt_succ_of_lt (h.requestIds i r hr)
  · exact h.contextIds
  · exact h.liveIds
  · exact h.injective
  · exact h.disjoint
  · intro c' o' token fd ho' hget
    obtain ⟨recent, e, past, hdec, hgives, hclosed⟩ := h.held c' o' token fd ho' hget
    refine ⟨.sent s.nextRequest c translated :: recent, e, past, ?_, hgives, ?_⟩
    · simp [RouterVm.send, hdec]
    · intro i b hs hc
      have hnew : ∀ j, RouterLog.answered j ∉ s.log →
          RouterLog.answered j ∉ (s.send c translated body).log := by
        intro j hj hmem
        rcases List.mem_cons.mp hmem with heq | hmem
        · cases heq
        · exact hj hmem
      rcases List.mem_cons.mp hs with heq | hs
      · cases heq
        refine ⟨hnew _ hfresh, fun r hr => ?_⟩
        simp only [RouterVm.send, Function.update_self, Option.map_eq_some_iff] at hr
        obtain ⟨b', hb', rfl⟩ := hr
        obtain ⟨token', htoken', hget'⟩ := hclose b' hb' fd hc
        obtain rfl : o = o' := Option.some.inj (ho.symm.trans ho')
        rw [h.injective _ o ho token token' fd hget hget']
        exact ⟨rfl, htoken'⟩
      · obtain ⟨hans, hpending⟩ := hclosed i b hs hc
        refine ⟨hnew i hans, fun r hr => hpending r ?_⟩
        have hlt : i < s.nextRequest := h.sentIds i c' b (by rw [hdec]; exact List.mem_append_left _ hs)
        simpa [RouterVm.send, hlt.ne] using hr
  · intro recent i c' b past hdec
    refine h.outgoing_cons (fun i c' b heq => ?_) hdec
    cases heq
    intro v hv
    obtain ⟨token, fd, rfl, hget⟩ := hnamed v hv
    exact ⟨fd, rfl, (h.held c o token fd ho hget).held⟩

/-- The answer to a request is applied where the token that it closes is gone. -/
theorem answer (h : RouterInv s) {i : ℕ} {r : HostRequest} (hr : s.requests i = some r)
    (hgone : ∀ o token, s.objects r.context = some o → closeTarget r.body = some token →
      get o.descriptors token = none) : RouterInv (s.answer i) := by
  constructor
  · intro j c' b hs
    rcases List.mem_cons.mp hs with heq | hs
    · cases heq
    · exact h.sentIds j c' b hs
  · intro j hj
    rcases List.mem_cons.mp hj with heq | hj
    · cases heq
      exact h.requestIds _ r hr
    · exact h.answeredIds j hj
  · intro j r' hr'
    by_cases hj : j = i
    · subst hj
      exact h.requestIds _ r hr
    · simp only [RouterVm.answer, Function.update_of_ne hj] at hr'
      exact h.requestIds j r' hr'
  · exact h.contextIds
  · exact h.liveIds
  · exact h.injective
  · exact h.disjoint
  · intro c' o' token fd ho' hget
    obtain ⟨recent, e, past, hdec, hgives, hclosed⟩ := h.held c' o' token fd ho' hget
    refine ⟨.answered i :: recent, e, past, ?_, hgives, ?_⟩
    · simp [RouterVm.answer, hdec]
    · intro j b hs hc
      rcases List.mem_cons.mp hs with heq | hs
      · cases heq
      · obtain ⟨hans, hpending⟩ := hclosed j b hs hc
        have hji : j ≠ i := by
          rintro rfl
          obtain ⟨rfl, htoken⟩ := hpending r hr
          rw [hgone o' token ho' htoken] at hget
          cases hget
        refine ⟨fun hmem => ?_, fun r' hr' => hpending r' ?_⟩
        · rcases List.mem_cons.mp hmem with heq | hmem
          · exact hji (RouterLog.answered.inj heq)
          · exact hans hmem
        · simpa [RouterVm.answer, hji] using hr'
  · intro recent j c' b past hdec
    exact h.outgoing_cons (fun _ _ _ heq => by cases heq) hdec

/-- A host descriptor that the context does not hold is given to it under a token that no live
context has. -/
theorem grant (h : RouterInv s) (ho : s.objects c = some o) {token fd : ℕ}
    (hnew : ∀ token, get o.descriptors token ≠ some fd)
    (htoken : ∀ c' ∈ s.contexts, ∀ o', s.objects c' = some o' → get o'.descriptors token = none) :
    RouterInv (s.grant c token fd) := by
  have hobject : ∀ c' o', (s.grant c token fd).objects c' = some o' →
      (c' ≠ c ∧ s.objects c' = some o') ∨ (c' = c ∧ o'.descriptors = set o.descriptors token fd) := by
    intro c' o' ho'
    rcases RouterVm.modify_cases ho' with hother | ⟨hc, p, hp, rfl⟩
    · exact .inl hother
    · cases ho.symm.trans hp
      exact .inr ⟨hc, rfl⟩
  constructor
  · intro i c' b hs
    rcases List.mem_cons.mp hs with heq | hs
    · cases heq
    · exact h.sentIds i c' b hs
  · intro i hi
    rcases List.mem_cons.mp hi with heq | hi
    · cases heq
    · exact h.answeredIds i hi
  · exact h.requestIds
  · intro c' o' ho'
    rcases hobject c' o' ho' with ⟨-, ho'⟩ | ⟨rfl, -⟩
    · exact h.contextIds c' o' ho'
    · exact h.contextIds _ o ho
  · exact h.liveIds
  · intro c' o' ho' k k' fd' hk hk'
    rcases hobject c' o' ho' with ⟨-, ho'⟩ | ⟨rfl, hd⟩
    · exact h.injective c' o' ho' k k' fd' hk hk'
    · rw [hd, get_set] at hk hk'
      split at hk <;> split at hk'
      · simp_all
      · cases hk
        exact absurd hk' (hnew k')
      · cases hk'
        exact absurd hk (hnew k)
      · exact h.injective _ o ho k k' fd' hk hk'
  · intro c₁ hc₁ c₂ hc₂ hne o₁ o₂ ho₁ ho₂ k hk hget
    rcases hobject c₁ o₁ ho₁ with ⟨-, hp₁⟩ | ⟨rfl, hd₁⟩ <;>
      rcases hobject c₂ o₂ ho₂ with ⟨-, hp₂⟩ | ⟨rfl, hd₂⟩
    · exact h.disjoint c₁ hc₁ c₂ hc₂ hne o₁ o₂ hp₁ hp₂ k hk hget
    · rw [hd₂, get_set, if_neg ?_]
      · exact h.disjoint c₁ hc₁ _ hc₂ hne o₁ o hp₁ ho k hk hget
      · rintro rfl
        exact hget (htoken c₁ hc₁ o₁ hp₁)
    · rw [hd₁, get_set] at hget
      split at hget
      · rename_i hkt
        subst hkt
        exact htoken c₂ hc₂ o₂ hp₂
      · exact h.disjoint _ hc₁ c₂ hc₂ hne o o₂ ho hp₂ k hk hget
    · exact absurd rfl hne
  · intro c' o' k fd' ho' hget
    have hold : ∀ p, s.objects c' = some p → get p.descriptors k = some fd' →
        HeldAs (s.grant c token fd) c' k fd' := by
      intro p hp hget
      exact (h.held c' p k fd' hp hget).cons rfl rfl (fun i c b he => by cases he)
        fun i he => by cases he
    rcases hobject c' o' ho' with ⟨-, ho'⟩ | ⟨rfl, hd⟩
    · exact hold o' ho' hget
    · rw [hd, get_set] at hget
      split at hget
      · cases hget
        refine ⟨[], .granted _ fd, s.log, rfl, .inl rfl, ?_⟩
        intro i b hs
        cases hs
      · exact hold o ho hget
  · intro recent j c' b past hdec
    exact h.outgoing_cons (fun _ _ _ heq => by cases heq) hdec

theorem createContext (h : RouterInv s) (options : HostOptions) :
    RouterInv (s.createContext options) := by
  generalize hstd : options.hostStandardDescriptors.getD
    (s.defaults.hostStandardDescriptors = some true) = standard
  have hobject : ∀ c' o', (s.createContext options).objects c' = some o' →
      (c' ≠ s.nextContextId ∧ s.objects c' = some o') ∨
      (c' = s.nextContextId ∧ ∀ token fd, get o'.descriptors token = some fd →
        token = fd ∧ token ≤ 2 ∧ standard = true) := by
    intro c' o' ho'
    by_cases hc : c' = s.nextContextId
    · subst hc
      simp only [RouterVm.createContext, Function.update_self, Option.some.injEq, hstd] at ho'
      subst ho'
      refine .inr ⟨rfl, fun token fd hget => ?_⟩
      cases standard with
      | false => cases hget
      | true =>
        have hmem := mem_of_get hget
        simp only [if_true, List.mem_cons, Prod.mk.injEq, List.not_mem_nil, or_false] at hmem
        rcases hmem with ⟨rfl, rfl⟩ | ⟨rfl, rfl⟩ | ⟨rfl, rfl⟩ <;> simp
    · simp only [RouterVm.createContext, Function.update_of_ne hc] at ho'
      exact .inl ⟨hc, ho'⟩
  have hlog : (s.createContext options).log = .created s.nextContextId standard :: s.log := by
    simp only [RouterVm.createContext, hstd]
  have hlive : ∀ c' ∈ (s.createContext options).contexts,
      c' ∈ s.contexts ∨ c' = s.nextContextId := by
    intro c' hc'
    simpa [RouterVm.createContext] using hc'
  have hfresh : ∀ c' o', (s.createContext options).objects c' = some o' → ∀ token ≥ 3,
      get o'.descriptors token ≠ none → c' ≠ s.nextContextId ∧ s.objects c' = some o' := by
    intro c' o' ho' token htoken hget
    rcases hobject c' o' ho' with hold | ⟨-, hstandard⟩
    · exact hold
    · obtain ⟨fd, hfd⟩ := Option.ne_none_iff_exists'.mp hget
      obtain ⟨-, hle, -⟩ := hstandard token fd hfd
      omega
  constructor
  · intro i c' b hs
    rw [hlog] at hs
    rcases List.mem_cons.mp hs with heq | hs
    · cases heq
    · exact h.sentIds i c' b hs
  · intro i hi
    rw [hlog] at hi
    rcases List.mem_cons.mp hi with heq | hi
    · cases heq
    · exact h.answeredIds i hi
  · exact h.requestIds
  · intro c' o' ho'
    rcases hobject c' o' ho' with ⟨-, ho'⟩ | ⟨rfl, -⟩
    · exact Nat.lt_succ_of_lt (h.contextIds c' o' ho')
    · exact Nat.lt_succ_self _
  · intro c' hc'
    rcases hlive c' hc' with hc' | rfl
    · exact Nat.lt_succ_of_lt (h.liveIds c' hc')
    · exact Nat.lt_succ_self _
  · intro c' o' ho' k k' fd hk hk'
    rcases hobject c' o' ho' with ⟨-, ho'⟩ | ⟨-, hstandard⟩
    · exact h.injective c' o' ho' k k' fd hk hk'
    · rw [(hstandard k fd hk).1, (hstandard k' fd hk').1]
  · intro c₁ hc₁ c₂ hc₂ hne o₁ o₂ ho₁ ho₂ k hk hget
    obtain ⟨hn₁, hp₁⟩ := hfresh c₁ o₁ ho₁ k hk hget
    by_contra hsome
    obtain ⟨hn₂, hp₂⟩ := hfresh c₂ o₂ ho₂ k hk hsome
    exact hsome (h.disjoint c₁ ((hlive c₁ hc₁).resolve_right hn₁) c₂
      ((hlive c₂ hc₂).resolve_right hn₂) hne o₁ o₂ hp₁ hp₂ k hk hget)
  · intro c' o' k fd ho' hget
    rcases hobject c' o' ho' with ⟨-, ho'⟩ | ⟨rfl, hstandard⟩
    · exact (h.held c' o' k fd ho' hget).cons hlog rfl nofun nofun
    · obtain ⟨rfl, hle, rfl⟩ := hstandard k fd hget
      refine ⟨[], .created s.nextContextId true, s.log, hlog, .inr ⟨rfl, hle⟩, ?_⟩
      intro i b hs
      cases hs
  · intro recent j c' b past hdec
    rw [hlog] at hdec
    exact h.outgoing_cons (fun _ _ _ heq => by cases heq) hdec

theorem closeOwned (h : RouterInv s) (ho : s.objects c = some o) (tokens : List ℕ) :
    RouterInv (RouterVm.closeOwned c o.descriptors s tokens) ∧
      (RouterVm.closeOwned c o.descriptors s tokens).objects = s.objects := by
  induction tokens generalizing s with
  | nil => exact ⟨h, rfl⟩
  | cons token tokens ih =>
    simp only [RouterVm.closeOwned]
    split
    · exact ih h ho
    · rename_i fd hfd
      refine ih (h.send ho (fun v hv => ?_) nofun) ho
      have hnamed : namedDescriptors (RouterVm.closeRequest fd) = [.integer fd] := rfl
      rw [hnamed, List.mem_singleton] at hv
      exact ⟨token, fd, hv, hfd⟩

theorem releaseContext (h : RouterInv s) (ho : s.objects c = some o) :
    RouterInv (s.releaseContext c o) := by
  obtain ⟨hinv, hobjects⟩ : RouterInv (if o.dispatchSync then
      RouterVm.closeOwned c o.descriptors s o.ownedDescriptors else s) ∧
      (if o.dispatchSync then
        RouterVm.closeOwned c o.descriptors s o.ownedDescriptors else s).objects = s.objects := by
    split
    · exact h.closeOwned ho _
    · exact ⟨h, rfl⟩
  unfold RouterVm.releaseContext
  dsimp only
  generalize (if o.dispatchSync then
    RouterVm.closeOwned c o.descriptors s o.ownedDescriptors else s) = s₁ at hinv hobjects ⊢
  refine hinv.shrink rfl rfl rfl (fun _ _ hr => hr) ?_ ?_
  · intro c' hc'
    exact (List.mem_filter.mp hc').1
  · intro c' o' ho'
    rcases RouterVm.modify_cases ho' with ⟨-, ho'⟩ | ⟨rfl, p, hp, rfl⟩
    · exact ⟨o', ho', fun _ _ hget => hget⟩
    · exact ⟨p, hp, nofun⟩

theorem searchToken_unused {first fuel token token' : ℕ}
    (h : (RouterVm.searchToken s first fuel token).1 = some token') :
    s.tokenUsed token' = false := by
  induction fuel generalizing token with
  | zero => cases h
  | succ fuel ih =>
    simp only [RouterVm.searchToken] at h
    split at h
    · rename_i hused
      cases h
      simpa using hused
    · split at h
      · cases h
      · exact ih h

theorem registerRaw {fds : List ℕ} (h : RouterInv s) (ho : s.objects c = some o)
    (hnodup : fds.Nodup) (hnew : ∀ fd ∈ fds, ∀ token, get o.descriptors token ≠ some fd) :
    RouterInv (RouterVm.registerRaw c s fds).2 := by
  induction fds generalizing s o with
  | nil => exact h
  | cons fd fds ih =>
    obtain ⟨hnot, hnodup⟩ := List.nodup_cons.mp hnodup
    have hcounter : ∀ n, RouterInv { s with nextDescriptorToken := n } := fun n =>
      h.shrink rfl rfl rfl (fun _ _ hr => hr) (fun _ hc => hc)
        fun _ o' ho' => ⟨o', ho', fun _ _ hget => hget⟩
    simp only [RouterVm.registerRaw]
    split
    · rename_i s₁ halloc
      obtain ⟨-, rfl⟩ := Prod.mk.inj halloc
      exact hcounter _
    · rename_i token s₁ halloc
      obtain ⟨htoken, rfl⟩ := Prod.mk.inj halloc
      have hfree : ∀ c' ∈ s.contexts, ∀ o', s.objects c' = some o' →
          get o'.descriptors token = none := by
        intro c' hc' o' ho'
        have hunused := searchToken_unused htoken
        simp only [RouterVm.tokenUsed, List.any_eq_false] at hunused
        simpa [ho'] using hunused c' hc'
      generalize (RouterVm.searchToken s s.nextDescriptorToken 0x3ffffffd
        s.nextDescriptorToken).2 = next
      have hgrant : RouterInv (RouterVm.grant { s with nextDescriptorToken := next } c token fd) :=
        (hcounter next).grant ho (hnew fd List.mem_cons_self) hfree
      have hobject : (RouterVm.grant { s with nextDescriptorToken := next } c token fd).objects c =
          some { o with
            descriptors := set o.descriptors token fd
            ownedDescriptors := if token ∈ o.ownedDescriptors then o.ownedDescriptors
              else o.ownedDescriptors ++ [token] } := by
        simp [RouterVm.grant, RouterVm.modify, ho]
      refine ih hgrant hobject hnodup fun fd' hfd' token' hget => ?_
      rw [get_set] at hget
      split at hget
      · cases hget
        exact hnot hfd'
      · exact hnew fd' (List.mem_cons_of_mem _ hfd') token' hget

theorem register (h : RouterInv s) (ho : s.objects c = some o) (values : List JsValue) :
    RouterInv (s.register c o values).2 := by
  unfold RouterVm.register
  split
  · exact h
  · rename_i raw _
    split
    · exact h
    · rename_i hnodup
      split
      · exact h
      · rename_i hlive
        refine h.registerRaw ho (not_not.mp hnodup) fun fd hfd token hget => hlive ?_
        rw [List.any_eq_true]
        refine ⟨fd, hfd, ?_⟩
        rw [List.contains_iff_mem, List.mem_map]
        exact ⟨(token, fd), mem_of_get hget, rfl⟩

theorem deleteToken (h : RouterInv s) (c : ℕ) (token : Option ℕ) :
    RouterInv (s.deleteToken c token) := by
  cases token with
  | none => exact h
  | some token =>
    refine h.shrink rfl rfl rfl (fun _ _ hr => hr) (fun _ hc => hc) ?_
    intro c' o' ho'
    rcases RouterVm.modify_cases ho' with ⟨-, ho'⟩ | ⟨rfl, p, hp, rfl⟩
    · exact ⟨o', ho', fun _ _ hget => hget⟩
    · refine ⟨p, hp, fun k fd hget => ?_⟩
      rw [get_delete] at hget
      split at hget
      · cases hget
      · exact hget

/-- An answer is applied to the context that has sent the request. -/
theorem respond (h : RouterInv s) {i : ℕ} {r : HostRequest} (hr : s.requests i = some r)
    (ho : s.objects r.context = some o) (response : JsValue) :
    RouterInv ((s.answer i).applyDescriptorResponse r.context o r.body response).2 := by
  have hanswer : closeTarget r.body = none → RouterInv (s.answer i) := by
    intro hnone
    refine h.answer hr fun o token _ htoken => ?_
    rw [hnone] at htoken
    cases htoken
  have hregister : closeTarget r.body = none → ∀ fields keys,
      RouterInv ((s.answer i).registerFields r.context o fields keys).2 := fun hnone _ _ =>
    (hanswer hnone).register ho _
  cases hbody : r.body with
  | object fields =>
    rw [hbody] at hanswer hregister
    simp only [RouterVm.applyDescriptorResponse]
    split
    · rename_i hservice
      exact hanswer (by simp_all [closeTarget])
    · rename_i hservice
      split
      · rename_i hclose
        simp only [Bool.not_eq_true', Bool.not_eq_false, Bool.and_eq_true] at hservice hclose
        have hcomm : (s.answer i).deleteToken r.context
            ((RouterVm.closeToken fields).bind JsValue.descriptor) =
            (s.deleteToken r.context
              ((RouterVm.closeToken fields).bind JsValue.descriptor)).answer i := by
          unfold RouterVm.deleteToken
          split <;> rfl
        rw [hcomm]
        refine (h.deleteToken _ _).answer (r := r) ?_ fun o' token ho' htoken => ?_
        · unfold RouterVm.deleteToken
          split <;> exact hr
        · have htarget : (RouterVm.closeToken fields).bind JsValue.descriptor = some token := by
            simpa [hbody, closeTarget, hservice, hclose.1] using htoken
          rw [htarget] at ho'
          simp only [RouterVm.deleteToken, RouterVm.modify, Function.update_self,
            Option.map_eq_some_iff] at ho'
          obtain ⟨p, -, rfl⟩ := ho'
          simp [get_delete]
      · rename_i hclose
        have hnone : closeTarget (.object fields) = none := by
          simp only [closeTarget, ite_eq_right_iff, Bool.and_eq_true]
          rintro ⟨-, hop⟩
          have htoken : RouterVm.closeToken fields = none := by simpa [hop] using hclose
          rw [htoken]
          rfl
        split
        · split
          · exact hregister hnone _ _
          · split
            · exact hregister hnone _ _
            · split
              · split
                · exact hregister hnone _ _
                · exact hanswer hnone
              · exact hanswer hnone
        · exact hanswer hnone
  | _ =>
    rw [hbody] at hanswer
    exact hanswer rfl

theorem dispatch (h : RouterInv s) (ho : s.objects c = some o) (request : JsValue) :
    RouterInv (s.dispatch c o request).2 := by
  unfold RouterVm.dispatch
  split
  · exact h
  · rename_i translated ht
    obtain ⟨hnamed, hclose⟩ := o.translate_spec ht
    refine h.send ho (fun v hv => ?_) ?_
    · obtain ⟨w, -, token, fd, -, hget, rfl⟩ := exists_of_mem_right hnamed hv
      exact ⟨token, fd, rfl, hget⟩
    · intro b hb
      cases hb
      exact hclose

theorem step {e : RouterCall} (h : RouterInv s) (hstep : routerStep s e = some s') :
    RouterInv s' := by
  have hsame : ∀ {u : RouterVm}, u.log = s.log → u.nextRequest = s.nextRequest →
      u.nextContextId = s.nextContextId → (∀ i r, u.requests i = some r → s.requests i = some r) →
      u.contexts = s.contexts → u.objects = s.objects → RouterInv u := by
    intro u hlog hnext hids hreq hctx hobj
    refine h.shrink hlog hnext hids hreq (fun c hc => hctx ▸ hc) fun c o ho => ?_
    rw [hobj] at ho
    exact ⟨o, ho, fun _ _ hget => hget⟩
  cases e with
  | createContext options =>
    cases hstep
    exact h.createContext options
  | releaseContext c =>
    obtain ⟨o, ho, rfl⟩ := Option.map_eq_some_iff.mp hstep
    exact h.releaseContext ho
  | run c =>
    obtain ⟨o, ho, rfl⟩ := Option.map_eq_some_iff.mp hstep
    exact hsame rfl rfl rfl (fun _ _ hr => hr) rfl rfl
  | runEnds =>
    simp only [routerStep] at hstep
    split at hstep
    · cases hstep
    · cases hstep
      exact hsame rfl rfl rfl (fun _ _ hr => hr) rfl rfl
  | dispatchSync request =>
    cases hstep
    unfold RouterVm.dispatchSync
    split
    · exact h
    · split
      · exact h
      · rename_i o ho
        split
        · exact h.dispatch ho request
        · exact h
  | dispatchAsync request contextId =>
    cases hstep
    unfold RouterVm.dispatchAsync
    split
    · exact h
    · split
      · exact h
      · rename_i o ho
        split
        · exact h.dispatch ho request
        · exact h
  | respond i response =>
    obtain ⟨r, hr, hstep⟩ := Option.bind_eq_some_iff.mp hstep
    obtain ⟨o, ho, rfl⟩ := Option.map_eq_some_iff.mp hstep
    exact h.respond hr ho response
  | reject i =>
    obtain ⟨r, hr, rfl⟩ := Option.map_eq_some_iff.mp hstep
    refine hsame rfl rfl rfl (fun j r' hr' => ?_) rfl rfl
    by_cases hj : j = i
    · subst hj
      simp at hr'
    · simpa [hj] using hr'

end RouterInv

/-- A request to the service `posix`. -/
def posixRequest (operation : String) (payload : JsFields) : JsValue :=
  .object [("service", .string "posix"), ("operation", .string operation),
    ("payload", .object payload)]

end TraceJvm
