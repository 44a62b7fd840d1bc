import TraceJvm.HostTables

/-! `tracejvm_host_dispose_active_context`: what it takes out of the tables, and the contexts for
which this is what they own. -/
namespace TraceJvm

open OrderedMap List

def HostEnv.stores (env : HostEnv) (context : UInt32) : Bool := context = env.context

namespace HostTables

variable {t : HostTables} {env : HostEnv}

structure Sized (t : HostTables) : Prop where
  epolls : t.epolls.length = epollInstanceLimit
  eventfds : t.eventfds.length = eventfdLimit
  inotifies : t.inotifies.length = inotifyInstanceLimit
  watches : t.watches.length = inotifyWatchLimit

/-! ### Closing -/

theorem epollIndex_some {fd : ℤ} {j : ℕ} (h : t.epollIndex env fd = some j) :
    (epollFdBase ≤ fd ∧ fd < epollFdBase + epollInstanceLimit) ∧ j = (fd - epollFdBase).toNat ∧
      ∃ e, t.epolls[j]? = some (some e) ∧ e.context = env.context := by
  unfold epollIndex at h
  split at h
  · rename_i hrange
    split at h
    · rename_i e he
      split at h
      · rename_i hcontext
        cases h
        exact ⟨hrange, rfl, e, he, hcontext⟩
      · cases h
    · cases h
  · cases h

theorem inotifyIndex_base {k : ℕ} {i : InotifyInstance} (hk : k < inotifyInstanceLimit)
    (hi : t.inotifies[k]? = some (some i)) (hcontext : i.context = env.context) :
    t.inotifyIndex env (inotifyFdBase + k) = some k := by
  have hindex : (inotifyFdBase + (k : ℤ) - inotifyFdBase).toNat = k := by omega
  unfold inotifyIndex
  rw [if_pos ⟨by omega, by omega⟩, hindex, hi]
  exact if_pos hcontext

theorem instances_none_of_remote (t : HostTables) (env : HostEnv) {fd : ℤ}
    (h : isRemoteFd fd = true) :
    t.inotifyIndex env fd = none ∧ t.epollIndex env fd = none := by
  have hfd := of_decide_eq_true h
  unfold taggedFdBase at hfd
  constructor
  · unfold inotifyIndex
    rw [if_neg]
    unfold inotifyFdBase inotifyInstanceLimit
    omega
  · unfold epollIndex
    rw [if_neg]
    unfold epollFdBase epollInstanceLimit
    omega

def otherEpolls (context : UInt32) (epolls : List (Option EpollInstance)) :
    List (Option EpollInstance) :=
  epolls.map (Option.filter fun e => e.context ≠ context)

theorem otherEpolls_set_none {epolls : List (Option EpollInstance)} {j : ℕ} {e : EpollInstance}
    (he : epolls[j]? = some (some e)) :
    otherEpolls e.context (epolls.set j none) = otherEpolls e.context epolls := by
  unfold otherEpolls
  rw [map_set]
  apply ext_getElem?
  intro i
  by_cases hij : j = i
  · subst hij
    obtain ⟨hlt, -⟩ := List.getElem?_eq_some_iff.mp he
    rw [getElem?_set_self (by rwa [length_map]), getElem?_map, he]
    simp [Option.filter]
  · rw [getElem?_set_ne hij]

def freed (t : HostTables) (index : Option ℕ) : List (Option EpollInstance) :=
  match index with
  | some j => t.epolls.set j none
  | none => t.epolls

/-- Closing the inner set of an inotify instance frees it, if it is one of the active context. -/
theorem closePlain_inner_frees (t : HostTables) (env : HostEnv) {fd : ℤ}
    (hfd : epollFdBase ≤ fd ∧ fd < epollFdBase + epollInstanceLimit) :
    (t.closePlain env fd).1 = { t with epolls := t.freed (t.epollIndex env fd) } := by
  unfold closePlain
  cases hindex : t.epollIndex env fd with
  | some j => rfl
  | none =>
    have hremote : ∀ fd', isRemoteFd fd' = true → fd' ≠ fd := by
      rintro fd' h rfl
      have hrange := of_decide_eq_true h
      unfold taggedFdBase at hrange
      unfold epollFdBase epollInstanceLimit at hfd
      omega
    have heventfd : t.eventfdIndex env fd = none := by
      unfold eventfdIndex
      apply findIdx?_eq_none_iff.mpr
      intro x _
      cases x with
      | none => rfl
      | some e => exact decide_eq_false fun h => hremote e.readFd e.remote.1 h.2
    have hroutes : env.routesFd fd = false := by
      unfold HostEnv.routesFd
      have h₁ : isRemoteFd fd = false := by
        rw [← Bool.not_eq_true]
        exact fun h => hremote fd h rfl
      have h₂ : ¬ fd ≤ 2 := by
        unfold epollFdBase at hfd
        omega
      rw [h₁, decide_eq_false h₂]
      simp
    dsimp only
    rw [heventfd]
    dsimp only
    rw [if_neg (by rw [hroutes]; exact Bool.false_ne_true)]
    rfl

theorem closePlain_inner (t : HostTables) (env : HostEnv) {fd : ℤ}
    (hfd : epollFdBase ≤ fd ∧ fd < epollFdBase + epollInstanceLimit) :
    ∃ epolls, (t.closePlain env fd).1 = { t with epolls } ∧
      otherEpolls env.context epolls = otherEpolls env.context t.epolls := by
  refine ⟨_, closePlain_inner_frees t env hfd, ?_⟩
  cases hindex : t.epollIndex env fd with
  | some j =>
    obtain ⟨-, -, e, he, hcontext⟩ := epollIndex_some hindex
    exact hcontext ▸ otherEpolls_set_none he
  | none => rfl

theorem close_inotify {k : ℕ} {i : InotifyInstance} (hk : k < inotifyInstanceLimit)
    (hi : t.inotifies[k]? = some (some i)) (hcontext : i.context = env.context) :
    ∃ epolls, (t.close env (inotifyFdBase + k)).1 =
        { t.closeWatches k with epolls, inotifies := t.inotifies.set k none } ∧
      otherEpolls env.context epolls = otherEpolls env.context t.epolls := by
  obtain ⟨epolls, hclose, hother⟩ := closePlain_inner (t.closeWatches k) env i.inner
  refine ⟨epolls, ?_, hother⟩
  unfold close
  rw [inotifyIndex_base hk hi hcontext]
  have hjoin : t.inotifies[k]?.join = some i := by rw [hi]; rfl
  dsimp only
  rw [hjoin]
  dsimp only
  rw [hclose]
  rfl

/-- What closing the descriptor for reading of an event descriptor changes, if no earlier one of
the context has the same. -/
theorem close_eventfd {k : ℕ} {e : EventDescriptor} (he : t.eventfds[k]? = some (some e))
    (hcontext : e.context = env.context)
    (hfirst : ∀ j < k, ∀ e', t.eventfds[j]? = some (some e') → e'.context ≠ env.context) :
    (t.close env e.readFd).1 =
      { (t.closeRemote e.readFd).closeRemote e.writeFd with
        eventfds := t.eventfds.set k none } := by
  obtain ⟨hinotify, hepoll⟩ := instances_none_of_remote t env e.remote.1
  have hindex : t.eventfdIndex env e.readFd = some k := by
    unfold eventfdIndex
    obtain ⟨hlt, hget⟩ := List.getElem?_eq_some_iff.mp he
    apply findIdx?_eq_some_iff_getElem.mpr
    refine ⟨hlt, ?_, ?_⟩
    · rw [hget]
      exact decide_eq_true ⟨hcontext, rfl⟩
    · intro j hj
      have hj' : t.eventfds[j]? = some t.eventfds[j] :=
        getElem?_eq_getElem (Nat.lt_trans hj hlt)
      cases hx : t.eventfds[j] with
      | none => exact Bool.false_ne_true
      | some e' =>
        rw [hx] at hj'
        intro h
        exact hfirst j hj e' hj' (of_decide_eq_true h).1
  unfold close closePlain
  rw [hinotify]
  dsimp only
  rw [hepoll]
  dsimp only
  rw [hindex]
  have hjoin : t.eventfds[k]?.join = some e := by rw [he]; rfl
  dsimp only
  rw [hjoin]

/-! ### The loops -/

def ownedInotify (t : HostTables) (stored : UInt32 → Bool) (owner : ℕ) : Bool :=
  match t.inotifies[owner]?.join with
  | some i => stored i.context
  | none => false

def dropped {α : Type} (context : α → UInt32) (c : UInt32) (n : ℕ) (ts : List (Option α)) :
    List (Option α) :=
  ts.mapIdx fun i x => if i < n then x.filter fun a => context a ≠ c else x

section Dropped

variable {α : Type} {context : α → UInt32} {c : UInt32} {n : ℕ} {ts : List (Option α)}

theorem dropped_zero : dropped context c 0 ts = ts := by
  apply ext_getElem?
  intro i
  unfold dropped
  rw [getElem?_mapIdx]
  simp

theorem dropped_get (h : n ≤ i) : (dropped context c n ts)[i]? = ts[i]? := by
  unfold dropped
  rw [getElem?_mapIdx]
  simp [Nat.not_lt.mpr h]

theorem dropped_set {a : α} (ha : ts[n]? = some (some a)) (hc : context a = c) :
    (dropped context c n ts).set n none = dropped context c (n + 1) ts := by
  obtain ⟨hlt, -⟩ := List.getElem?_eq_some_iff.mp ha
  apply ext_getElem?
  intro i
  unfold dropped
  by_cases hi : n = i
  · subst hi
    rw [getElem?_set_self (by rwa [length_mapIdx]), getElem?_mapIdx, ha]
    simp [Option.filter, hc]
  · rw [getElem?_set_ne hi, getElem?_mapIdx, getElem?_mapIdx]
    have hiff : i < n ↔ i < n + 1 := by omega
    simp only [hiff]

theorem dropped_succ (h : ∀ a, ts[n]? = some (some a) → context a ≠ c) :
    dropped context c (n + 1) ts = dropped context c n ts := by
  apply ext_getElem?
  intro i
  unfold dropped
  rw [getElem?_mapIdx, getElem?_mapIdx]
  by_cases hi : n = i
  · subst hi
    cases hx : ts[n]? with
    | none => rfl
    | some x =>
      cases x with
      | none => simp
      | some a => simp [Option.filter, h a hx]
  · have hiff : i < n + 1 ↔ i < n := by omega
    simp only [hiff]

theorem dropped_all (h : ts.length ≤ n) :
    dropped context c n ts = ts.map (Option.filter fun a => context a ≠ c) := by
  apply ext_getElem?
  intro i
  unfold dropped
  rw [getElem?_mapIdx, getElem?_map]
  by_cases hi : i < ts.length
  · simp [Nat.lt_of_lt_of_le hi h]
  · rw [getElem?_eq_none (Nat.not_lt.mp hi)]
    rfl

end Dropped

def watchClosings (t : HostTables) (owner : ℕ) : List DescriptorEvent :=
  (t.ownedWatches owner).map fun w => .closed (remoteFd w.fd)

def inotifyClosings (t : HostTables) (stored : UInt32 → Bool) (n : ℕ) : List DescriptorEvent :=
  ((List.range n).filter (t.ownedInotify stored)).flatMap t.watchClosings

structure AfterInotifies (env : HostEnv) (t t' : HostTables) (n : ℕ) : Prop where
  inotifies : t'.inotifies = dropped InotifyInstance.context env.context n t.inotifies
  watches : t'.watches = t.watches.map (Option.filter fun w =>
    !(decide (w.owner < n) && t.ownedInotify env.stores w.owner))
  log : t'.log = (t.inotifyClosings env.stores n).reverse ++ t.log
  epolls : otherEpolls env.context t'.epolls = otherEpolls env.context t.epolls
  eventfds : t'.eventfds = t.eventfds
  calls : t'.calls = t.calls
  nextCallId : t'.nextCallId = t.nextCallId

theorem inotifyClosings_succ (t : HostTables) (stored : UInt32 → Bool) (n : ℕ) :
    t.inotifyClosings stored (n + 1) = t.inotifyClosings stored n ++
      if t.ownedInotify stored n then t.watchClosings n else [] := by
  unfold inotifyClosings
  rw [range_succ, filter_append, flatMap_append]
  congr 1
  by_cases h : t.ownedInotify stored n = true
  · rw [if_pos h, filter_cons_of_pos h]
    simp
  · rw [if_neg h, filter_cons_of_neg h]
    rfl

theorem AfterInotifies.ownedWatches {t' : HostTables} {n : ℕ} (h : AfterInotifies env t t' n) :
    t'.ownedWatches n = t.ownedWatches n := by
  unfold HostTables.ownedWatches
  rw [h.watches, filterMap_map]
  apply filterMap_congr
  intro x _
  cases x with
  | none => rfl
  | some w =>
    by_cases howner : w.owner = n
    · simp [Option.filter, howner]
    · simp only [Function.comp, Option.filter]
      split <;> simp [howner]

theorem afterInotifies_step {t' : HostTables} {n : ℕ} (hn : n < inotifyInstanceLimit)
    (h : AfterInotifies env t t' n) : AfterInotifies env t (t'.disposeInotify env n) (n + 1) := by
  have hget : t'.inotifies[n]? = t.inotifies[n]? := by
    rw [h.inotifies, dropped_get (Nat.le_refl n)]
  by_cases howned : ∃ i, t.inotifies[n]? = some (some i) ∧ i.context = env.context
  · obtain ⟨i, hi, hcontext⟩ := howned
    have hown : t.ownedInotify env.stores n = true := by
      unfold ownedInotify
      rw [hi]
      exact decide_eq_true hcontext
    have hi' : t'.inotifies[n]? = some (some i) := hget.trans hi
    obtain ⟨epolls, hclose, hother⟩ := close_inotify hn hi' hcontext
    have hround : t'.disposeInotify env n =
        { t'.closeWatches n with epolls, inotifies := t'.inotifies.set n none } := by
      have hjoin : t'.inotifies[n]?.join = some i := by rw [hi']; rfl
      unfold disposeInotify
      rw [hjoin]
      dsimp only
      rw [if_pos hcontext, hclose]
    rw [hround]
    refine ⟨?_, ?_, ?_, hother.trans h.epolls, h.eventfds, h.calls, h.nextCallId⟩
    · show t'.inotifies.set n none = _
      rw [h.inotifies]
      exact dropped_set hi hcontext
    · show t'.watches.map (Option.filter fun w => w.owner ≠ n) = _
      rw [h.watches, map_map]
      apply map_congr_left
      intro x _
      cases x with
      | none => rfl
      | some w =>
        by_cases howner : w.owner = n
        · simp [Option.filter, howner, hown]
        · have hiff : w.owner < n + 1 ↔ w.owner < n := by omega
          show Option.filter _ (Option.filter _ (some w)) = _
          rw [Option.filter_filter]
          simp [Option.filter, howner, hiff]
    · show (t'.ownedWatches n).reverse.map (fun w => .closed (remoteFd w.fd)) ++ t'.log = _
      rw [h.ownedWatches, h.log, inotifyClosings_succ, if_pos hown, reverse_append,
        map_reverse, append_assoc]
      rfl
  · have hown : t.ownedInotify env.stores n = false := by
      unfold ownedInotify
      cases hi : t.inotifies[n]? with
      | none => rfl
      | some x =>
        cases x with
        | none => rfl
        | some i => exact decide_eq_false fun hcontext => howned ⟨i, hi, hcontext⟩
    have hround : t'.disposeInotify env n = t' := by
      unfold disposeInotify
      rw [hget]
      cases hi : t.inotifies[n]? with
      | none => rfl
      | some x =>
        cases x with
        | none => rfl
        | some i => exact if_neg fun hcontext => howned ⟨i, hi, hcontext⟩
    rw [hround]
    refine { h with inotifies := ?_, watches := ?_, log := ?_ }
    · rw [h.inotifies, dropped_succ]
      exact fun i hi hcontext => howned ⟨i, hi, hcontext⟩
    · rw [h.watches]
      apply map_congr_left
      intro x _
      cases x with
      | none => rfl
      | some w =>
        by_cases howner : w.owner = n
        · simp [Option.filter, howner, hown]
        · have hiff : w.owner < n + 1 ↔ w.owner < n := by omega
          simp [Option.filter, hiff]
    · rw [h.log, inotifyClosings_succ, hown]
      simp

theorem afterInotifies (env : HostEnv) (t : HostTables) {n : ℕ} (hn : n ≤ inotifyInstanceLimit) :
    AfterInotifies env t ((List.range n).foldl (fun t i => t.disposeInotify env i) t) n := by
  induction n with
  | zero =>
    refine ⟨dropped_zero.symm, ?_, rfl, rfl, rfl, rfl, rfl⟩
    have hall : (Option.filter fun w : InotifyWatch =>
        !(decide (w.owner < 0) && t.ownedInotify env.stores w.owner)) = id := by
      funext x
      cases x <;> simp [Option.filter]
    rw [hall, map_id]
    rfl
  | succ n ih =>
    rw [range_succ, foldl_append]
    exact afterInotifies_step hn (ih (Nat.le_of_lt hn))

def eventfdClosings (stored : UInt32 → Bool) : Option EventDescriptor → List DescriptorEvent
  | some e =>
    if stored e.context then [.closed (remoteFd e.readFd), .closed (remoteFd e.writeFd)] else []
  | none => []

structure AfterEventfds (env : HostEnv) (t t' : HostTables) (n : ℕ) : Prop where
  eventfds : t'.eventfds = dropped EventDescriptor.context env.context n t.eventfds
  log : t'.log = ((t.eventfds.take n).flatMap (eventfdClosings env.stores)).reverse ++ t.log
  inotifies : t'.inotifies = t.inotifies
  watches : t'.watches = t.watches
  epolls : t'.epolls = t.epolls
  calls : t'.calls = t.calls
  nextCallId : t'.nextCallId = t.nextCallId

theorem afterEventfds_step {t' : HostTables} {n : ℕ} (hn : n < t.eventfds.length)
    (h : AfterEventfds env t t' n) : AfterEventfds env t (t'.disposeEventfd env n) (n + 1) := by
  have hget : t'.eventfds[n]? = t.eventfds[n]? := by
    rw [h.eventfds, dropped_get (Nat.le_refl n)]
  have hx : t.eventfds[n]? = some t.eventfds[n] := getElem?_eq_getElem hn
  by_cases howned : ∃ e, t.eventfds[n] = some e ∧ e.context = env.context
  · obtain ⟨e, he, hcontext⟩ := howned
    rw [he] at hx
    have he' : t'.eventfds[n]? = some (some e) := hget.trans hx
    have hfirst : ∀ j < n, ∀ e', t'.eventfds[j]? = some (some e') → e'.context ≠ env.context := by
      intro j hj e' he'
      rw [h.eventfds, dropped, getElem?_mapIdx, Option.map_eq_some_iff] at he'
      obtain ⟨x, -, hfilter⟩ := he'
      rw [if_pos hj] at hfilter
      exact of_decide_eq_true (Option.filter_eq_some_iff.mp hfilter).2
    have hround : t'.disposeEventfd env n =
        { (t'.closeRemote e.readFd).closeRemote e.writeFd with
          eventfds := t'.eventfds.set n none } := by
      have hjoin : t'.eventfds[n]?.join = some e := by rw [he']; rfl
      unfold disposeEventfd
      rw [hjoin]
      dsimp only
      rw [if_pos hcontext, close_eventfd he' hcontext hfirst]
    rw [hround]
    refine { h with eventfds := ?_, log := ?_ }
    · show t'.eventfds.set n none = _
      rw [h.eventfds]
      exact dropped_set hx hcontext
    · show .closed (remoteFd e.writeFd) :: .closed (remoteFd e.readFd) :: t'.log = _
      have hclosings : eventfdClosings env.stores (some e) =
          [.closed (remoteFd e.readFd), .closed (remoteFd e.writeFd)] :=
        if_pos (decide_eq_true hcontext)
      rw [h.log, take_add_one, hx, flatMap_append, reverse_append]
      show _ = (([some e].flatMap (eventfdClosings env.stores)).reverse ++ _) ++ _
      rw [flatMap_singleton, hclosings]
      rfl
  · have hround : t'.disposeEventfd env n = t' := by
      unfold disposeEventfd
      rw [hget, hx]
      cases hval : t.eventfds[n] with
      | none => rfl
      | some e => exact if_neg fun hcontext => howned ⟨e, hval, hcontext⟩
    rw [hround]
    refine { h with eventfds := ?_, log := ?_ }
    · rw [h.eventfds, dropped_succ]
      intro e he hcontext
      rw [hx] at he
      exact howned ⟨e, Option.some.inj he, hcontext⟩
    · have hclosings : eventfdClosings env.stores t.eventfds[n] = [] := by
        cases hval : t.eventfds[n] with
        | none => rfl
        | some e => exact if_neg fun hstores => howned ⟨e, hval, of_decide_eq_true hstores⟩
      rw [h.log, take_add_one, hx, flatMap_append, Option.toList_some,
        flatMap_singleton, hclosings, append_nil]

theorem afterEventfds (env : HostEnv) (t : HostTables) {n : ℕ} (hn : n ≤ t.eventfds.length) :
    AfterEventfds env t ((List.range n).foldl (fun t i => t.disposeEventfd env i) t) n := by
  induction n with
  | zero => exact ⟨dropped_zero.symm, rfl, rfl, rfl, rfl, rfl, rfl⟩
  | succ n ih =>
    rw [range_succ, foldl_append]
    exact afterEventfds_step hn (ih (Nat.le_of_lt hn))

/-! ### Disposal -/

/-- The tables without what is stored under some numbers and without some calls. -/
structure Removes (stored : UInt32 → Bool) (called : ℕ → Bool) (t t' : HostTables) : Prop where
  inotifies : t'.inotifies = t.inotifies.map (Option.filter fun i => !stored i.context)
  watches : t'.watches = t.watches.map (Option.filter fun w => !t.ownedInotify stored w.owner)
  eventfds : t'.eventfds = t.eventfds.map (Option.filter fun e => !stored e.context)
  epolls : t'.epolls = t.epolls.map (Option.filter fun e => !stored e.context)
  calls : t'.calls = t.calls.filter fun c => !called c.2.contextId
  nextCallId : t'.nextCallId = t.nextCallId
  /-- The closings, the last one first. -/
  log : t'.log = (t.inotifyClosings stored inotifyInstanceLimit ++
    t.eventfds.flatMap (eventfdClosings stored)).reverse ++ t.log

/-- What the disposal takes out: what is stored under the number modulo 2^32, and the calls whose
number is the same as a signed one. -/
theorem disposeActiveContext_removes (hsized : t.Sized) (hcontext : env.context ≠ 0) :
    Removes env.stores (fun contextId => (contextId : ℤ) = env.context.toInt32.toInt) t
      (t.disposeActiveContext env) := by
  have h₁ := afterInotifies env t (Nat.le_refl inotifyInstanceLimit)
  generalize ht₁ : (List.range inotifyInstanceLimit).foldl (fun t i => t.disposeInotify env i) t =
    t₁ at h₁
  have hlength : eventfdLimit ≤ t₁.eventfds.length := by
    rw [h₁.eventfds, hsized.eventfds]
  have h₂ := afterEventfds env t₁ hlength
  generalize ht₂ : (List.range eventfdLimit).foldl (fun t i => t.disposeEventfd env i) t₁ =
    t₂ at h₂
  have hdispose : t.disposeActiveContext env = { t₂ with
      epolls := otherEpolls env.context t₂.epolls
      calls := t₂.calls.filter fun c => (c.2.contextId : ℤ) ≠ env.context.toInt32.toInt } := by
    unfold disposeActiveContext
    rw [if_neg hcontext]
    dsimp only
    rw [ht₁, ht₂]
    rfl
  rw [hdispose]
  refine ⟨?_, ?_, ?_, ?_, ?_, h₂.nextCallId.trans h₁.nextCallId, ?_⟩
  · show t₂.inotifies = _
    rw [h₂.inotifies, h₁.inotifies, dropped_all (Nat.le_of_eq hsized.inotifies)]
    simp [HostEnv.stores]
  · show t₂.watches = _
    rw [h₂.watches, h₁.watches]
    apply map_congr_left
    intro x _
    cases x with
    | none => rfl
    | some w =>
      by_cases hlt : w.owner < inotifyInstanceLimit
      · simp [Option.filter, hlt]
      · have hnone : t.inotifies[w.owner]? = none :=
          getElem?_eq_none (hsized.inotifies ▸ Nat.not_lt.mp hlt)
        simp [Option.filter, hlt, ownedInotify, hnone]
  · show t₂.eventfds = _
    rw [h₂.eventfds, h₁.eventfds, dropped_all (Nat.le_of_eq hsized.eventfds)]
    simp [HostEnv.stores]
  · show otherEpolls env.context t₂.epolls = _
    rw [h₂.epolls, h₁.epolls]
    unfold otherEpolls HostEnv.stores
    simp
  · show t₂.calls.filter _ = _
    rw [h₂.calls, h₁.calls]
    apply filter_congr
    intro c _
    simp
  · show t₂.log = _
    rw [h₂.log, h₁.log, reverse_append, append_assoc, h₁.eventfds,
      take_of_length_le (Nat.le_of_eq hsized.eventfds)]

/-- Everything that a context owns is taken out, with its descriptors closed once each, and
everything else is left as it is. -/
def DisposesExactly (contextId : ℕ) (t t' : HostTables) : Prop :=
  Removes (fun context => context.toNat = contextId) (fun called => called = contextId) t t'

def StoredIn (t : HostTables) (context : UInt32) : Prop :=
  (∃ i, some i ∈ t.inotifies ∧ i.context = context) ∨
    (∃ e, some e ∈ t.eventfds ∧ e.context = context) ∨
    ∃ e, some e ∈ t.epolls ∧ e.context = context

section Agreement

variable {stored stored' : UInt32 → Bool} {called called' : ℕ → Bool} {t' : HostTables}

theorem ownedInotify_congr (h : ∀ x, t.StoredIn x → stored x = stored' x) (owner : ℕ) :
    t.ownedInotify stored owner = t.ownedInotify stored' owner := by
  unfold ownedInotify
  cases hi : t.inotifies[owner]? with
  | none => rfl
  | some x =>
    cases x with
    | none => rfl
    | some i => exact h i.context (Or.inl ⟨i, mem_of_getElem? hi, rfl⟩)

theorem map_filter_congr {α : Type} {ts : List (Option α)} {p p' : α → Bool}
    (h : ∀ a, some a ∈ ts → p a = p' a) : ts.map (Option.filter p) = ts.map (Option.filter p') := by
  apply map_congr_left
  intro x hx
  cases x with
  | none => rfl
  | some a => simp only [Option.filter, h a hx]

theorem eq_of_map_filter {α : Type} {ts : List (Option α)} {p p' : α → Bool}
    (h : ts.map (Option.filter p) = ts.map (Option.filter p')) (a : α) (ha : some a ∈ ts) :
    p a = p' a := by
  have heq := map_inj_left.mp h (some a) ha
  cases hp : p a with
  | true =>
    cases hp' : p' a with
    | true => rfl
    | false => simp [Option.filter, hp, hp'] at heq
  | false =>
    cases hp' : p' a with
    | true => simp [Option.filter, hp, hp'] at heq
    | false => rfl

/-- What is taken out only depends on the numbers that occur in the tables. -/
theorem Removes.congr (h : Removes stored called t t')
    (hstored : ∀ x, t.StoredIn x → stored x = stored' x)
    (hcalled : ∀ c ∈ t.calls, called c.2.contextId = called' c.2.contextId) :
    Removes stored' called' t t' where
  inotifies := by
    rw [h.inotifies]
    exact map_filter_congr fun i hi => by rw [hstored i.context (Or.inl ⟨i, hi, rfl⟩)]
  watches := by
    rw [h.watches]
    exact map_filter_congr fun w _ => by rw [ownedInotify_congr hstored]
  eventfds := by
    rw [h.eventfds]
    exact map_filter_congr fun e he => by rw [hstored e.context (Or.inr (Or.inl ⟨e, he, rfl⟩))]
  epolls := by
    rw [h.epolls]
    exact map_filter_congr fun e he => by rw [hstored e.context (Or.inr (Or.inr ⟨e, he, rfl⟩))]
  calls := by
    rw [h.calls]
    exact filter_congr fun c hc => by rw [hcalled c hc]
  nextCallId := h.nextCallId
  log := by
    have hinotify : t.inotifyClosings stored = t.inotifyClosings stored' := by
      funext n
      unfold inotifyClosings
      rw [funext (ownedInotify_congr hstored)]
    have heventfd : t.eventfds.flatMap (eventfdClosings stored) =
        t.eventfds.flatMap (eventfdClosings stored') := by
      apply flatMap_congr
      intro x hx
      cases x with
      | none => rfl
      | some e => simp only [eventfdClosings, hstored e.context (Or.inr (Or.inl ⟨e, hx, rfl⟩))]
    rw [h.log, hinotify, heventfd]

theorem Removes.agree (h : Removes stored called t t') (h' : Removes stored' called' t t') :
    (∀ x, t.StoredIn x → stored x = stored' x) ∧
      ∀ c ∈ t.calls, called c.2.contextId = called' c.2.contextId := by
  have hnot : ∀ a b : Bool, (!a) = (!b) → a = b := by decide
  constructor
  · rintro x (⟨i, hi, rfl⟩ | ⟨e, he, rfl⟩ | ⟨e, he, rfl⟩)
    · exact hnot _ _ (eq_of_map_filter (h.inotifies.symm.trans h'.inotifies) i hi)
    · exact hnot _ _ (eq_of_map_filter (h.eventfds.symm.trans h'.eventfds) e he)
    · exact hnot _ _ (eq_of_map_filter (h.epolls.symm.trans h'.epolls) e he)
  · intro c hc
    have heq := h.calls.symm.trans h'.calls
    have hiff : c ∈ t.calls.filter (fun c => !called c.2.contextId) ↔
        c ∈ t.calls.filter fun c => !called' c.2.contextId := by rw [heq]
    rw [mem_filter, mem_filter] at hiff
    apply hnot
    exact Bool.eq_iff_iff.mpr ⟨fun hp => (hiff.mp ⟨hc, hp⟩).2, fun hp => (hiff.mpr ⟨hc, hp⟩).2⟩

theorem Removes.iff_agree (h : Removes stored called t t') :
    Removes stored' called' t t' ↔ (∀ x, t.StoredIn x → stored x = stored' x) ∧
      ∀ c ∈ t.calls, called c.2.contextId = called' c.2.contextId :=
  ⟨h.agree, fun hagree => h.congr hagree.1 hagree.2⟩

theorem removes_nothing (t : HostTables) : Removes (fun _ => false) (fun _ => false) t t := by
  have hkeep : ∀ {α : Type} (ts : List (Option α)), ts = ts.map (Option.filter fun _ => true) := by
    intro α ts
    have hid : (Option.filter fun _ : α => true) = id := by
      funext x
      cases x <;> rfl
    rw [hid, map_id]
  have howned : ∀ owner, t.ownedInotify (fun _ => false) owner = false := by
    intro owner
    unfold ownedInotify
    cases t.inotifies[owner]?.join <;> rfl
  refine ⟨hkeep _, ?_, hkeep _, hkeep _, ?_, rfl, ?_⟩
  · simp only [howned]
    exact hkeep _
  · exact (filter_eq_self.mpr fun _ _ => rfl).symm
  · have hinotify : t.inotifyClosings (fun _ => false) inotifyInstanceLimit = [] := by
      unfold inotifyClosings
      rw [filter_eq_nil_iff.mpr fun owner _ => by rw [howned]; exact Bool.false_ne_true]
      rfl
    have heventfd : t.eventfds.flatMap (eventfdClosings fun _ => false) = [] := by
      apply flatMap_eq_nil_iff.mpr
      intro x _
      cases x <;> rfl
    rw [hinotify, heventfd]
    rfl

end Agreement

/-- The numbers for which the disposal is exact: those below 2^31, and others only if no call has
the number and, where it is stored modulo 2^32, nothing has the number that is stored. -/
def Disposable (t : HostTables) (contextId : ℕ) : Prop :=
  contextId < 2 ^ 31 ∨ (∀ c ∈ t.calls, c.2.contextId ≠ contextId) ∧
    (2 ^ 32 ≤ contextId → contextId % 2 ^ 32 ≠ 0 →
      (∀ x, t.StoredIn x → x.toNat ≠ contextId % 2 ^ 32) ∧
        (contextId % 2 ^ 32 < 2 ^ 31 → ∀ c ∈ t.calls, c.2.contextId ≠ contextId % 2 ^ 32))

theorem context_toNat (h : env.contextId < 2 ^ 53) :
    env.context.toNat = env.contextId % 2 ^ 32 := by
  unfold HostEnv.context
  rw [if_pos h, UInt32.toNat_ofNat']

theorem signed_eq (x : UInt32) :
    x.toInt32.toInt = if x.toNat < 2 ^ 31 then (x.toNat : ℤ) else x.toNat - 2 ^ 32 := by
  have hint : x.toInt32.toInt = x.toBitVec.toInt := rfl
  have hnat : x.toBitVec.toNat = x.toNat := rfl
  rw [hint, BitVec.toInt_eq_toNat_cond, hnat]
  split_ifs with h₁ h₂ h₂
  · rfl
  · omega
  · omega
  · rfl

/-- The disposal is exact precisely for these numbers. -/
theorem disposeActiveContext_right_iff (hsized : t.Sized)
    (hactive : 0 < env.contextId ∧ env.contextId < 2 ^ 53) :
    DisposesExactly env.contextId t (t.disposeActiveContext env) ↔ t.Disposable env.contextId := by
  have hnat := context_toNat hactive.2
  have hstores : ∀ x : UInt32, env.stores x = decide (x.toNat = env.contextId % 2 ^ 32) := by
    intro x
    unfold HostEnv.stores
    rw [← hnat, decide_eq_decide]
    exact UInt32.toNat_inj.symm
  have hlt : ∀ x : UInt32, x.toNat < 2 ^ 32 := fun x => x.toNat_lt
  unfold DisposesExactly Disposable
  by_cases hzero : env.context = 0
  · -- the number is a multiple of 2^32, and nothing is taken out
    have hmod : env.contextId % 2 ^ 32 = 0 := by
      rw [← hnat, hzero]
      rfl
    have hsame : t.disposeActiveContext env = t := if_pos hzero
    rw [hsame, (removes_nothing t).iff_agree]
    constructor
    · intro hagree
      refine Or.inr ⟨fun c hc heq => ?_, fun _ hne => absurd hmod hne⟩
      have hcalled := hagree.2 c hc
      rw [heq] at hcalled
      simp at hcalled
    · rintro (hsmall | ⟨hcalls, -⟩)
      · omega
      · refine ⟨fun x _ => ?_, fun c hc => ?_⟩
        · have hx := hlt x
          exact (decide_eq_false (by omega)).symm
        · exact (decide_eq_false (hcalls c hc)).symm
  · have hremoves := disposeActiveContext_removes hsized hzero
    have hne : env.contextId % 2 ^ 32 ≠ 0 := by
      intro hmod
      apply hzero
      apply UInt32.toNat_inj.mp
      rw [hnat, hmod]
      rfl
    have hsigned := signed_eq env.context
    rw [hnat] at hsigned
    rw [hremoves.iff_agree]
    simp only [hstores]
    by_cases hsmall : env.contextId < 2 ^ 31
    · have hmod : env.contextId % 2 ^ 32 = env.contextId := Nat.mod_eq_of_lt (by omega)
      rw [hmod, if_pos hsmall] at hsigned
      refine iff_of_true ⟨fun x _ => by rw [hmod], fun c _ => ?_⟩ (Or.inl hsmall)
      rw [hsigned, decide_eq_decide]
      omega
    · constructor
      · intro hagree
        refine Or.inr ⟨fun c hc heq => ?_, fun hlarge _ => ⟨fun x hx heq => ?_, ?_⟩⟩
        · have hcalled := hagree.2 c hc
          rw [decide_eq_decide] at hcalled
          have hsame := hcalled.mpr heq
          split_ifs at hsigned
          · omega
          · omega
        · have hstored := hagree.1 x hx
          rw [decide_eq_decide] at hstored
          have hsame := hstored.mp heq
          omega
        · intro hpositive c hc heq
          rw [if_pos hpositive] at hsigned
          have hcalled := hagree.2 c hc
          rw [decide_eq_decide] at hcalled
          have hsame := hcalled.mp (by omega)
          omega
      · rintro (hlow | ⟨hcalls, hlarge⟩)
        · exact absurd hlow hsmall
        · refine ⟨fun x hx => ?_, fun c hc => ?_⟩
          · rw [decide_eq_decide]
            by_cases hbig : 2 ^ 32 ≤ env.contextId
            · have hother := (hlarge hbig hne).1 x hx
              have hxlt := hlt x
              omega
            · omega
          · have hother := hcalls c hc
            rw [decide_eq_decide]
            split_ifs at hsigned with hpositive
            · have hbig : 2 ^ 32 ≤ env.contextId := by omega
              have hlow := (hlarge hbig hne).2 hpositive c hc
              omega
            · omega

/-- The tables at the start, with a call of the context 7 and one of the context 8. -/
theorem disposeActiveContext_right_iff_start :
    DisposesExactly 7
      { HostTables.start with calls := [(1, ⟨7, [], none⟩), (2, ⟨8, [], none⟩)] }
      (HostTables.disposeActiveContext
        { HostTables.start with calls := [(1, ⟨7, [], none⟩), (2, ⟨8, [], none⟩)] }
        ⟨7, true, true, fun _ => none⟩) := by
  let env : HostEnv := ⟨7, true, true, fun _ => none⟩
  let t : HostTables :=
    { HostTables.start with calls := [(1, ⟨7, [], none⟩), (2, ⟨8, [], none⟩)] }
  have hsized : t.Sized := ⟨length_replicate, length_replicate, length_replicate, length_replicate⟩
  have hactive : 0 < env.contextId ∧ env.contextId < 2 ^ 53 := ⟨by decide, by decide⟩
  have hsmall : env.contextId < 2 ^ 31 := by decide
  exact (disposeActiveContext_right_iff hsized hactive).mpr (Or.inl hsmall)

/-- The context 2^31 keeps its call, as the number arrives as -2^31. -/
theorem disposal_keeps_call :
    ¬ DisposesExactly (2 ^ 31)
      { HostTables.start with calls := [(1, ⟨2 ^ 31, [], none⟩)] }
      (HostTables.disposeActiveContext
        { HostTables.start with calls := [(1, ⟨2 ^ 31, [], none⟩)] }
        ⟨2 ^ 31, true, true, fun _ => none⟩) := by
  have hremoves : Removes _ _ { HostTables.start with calls := [(1, ⟨2 ^ 31, [], none⟩)] }
      (HostTables.disposeActiveContext
        { HostTables.start with calls := [(1, ⟨2 ^ 31, [], none⟩)] }
        ⟨2 ^ 31, true, true, fun _ => none⟩) :=
    disposeActiveContext_removes ⟨length_replicate, length_replicate,
      length_replicate, length_replicate⟩ (by decide)
  intro hexact
  have hcalled := (hremoves.agree hexact).2 (1, ⟨2 ^ 31, [], none⟩) (mem_singleton_self _)
  exact absurd hcalled (by decide)

end HostTables

end TraceJvm
