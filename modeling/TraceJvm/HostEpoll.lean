import Mathlib.Data.List.Perm.Subperm
import TraceJvm.HostArrays

/-! Emulated epoll sets over whole runs: the entries are a map of open descriptors, and a wait
submits them. -/
namespace TraceJvm

open OrderedMap ArrayMap Transition

namespace HostTables

variable {t t' : HostTables} {env : HostEnv}

/-! ### Numbers of calls -/

def followingId (id : ℕ) : ℕ := if 0x7fffffff ≤ id then 1 else id + 1

def triedId (id j : ℕ) : ℕ := (followingId id - 1 + j) % 0x7fffffff + 1

theorem triedId_zero (id : ℕ) : triedId id 0 = followingId id := by
  unfold triedId followingId
  split_ifs
  · rfl
  · omega

theorem triedId_following (id j : ℕ) : triedId (followingId id) j = triedId id (j + 1) := by
  unfold triedId followingId
  split_ifs
  · omega
  · omega
  · omega
  · omega

variable {calls : List (ℕ × AsyncCall)}

theorem searchCallId_none {fuel id : ℕ} (h : searchCallId calls fuel id = none) :
    ∀ j < fuel, (get calls (triedId id j)).isSome = true := by
  induction fuel generalizing id with
  | zero => exact fun j hj => absurd hj (Nat.not_lt_zero j)
  | succ fuel ih =>
    have hstep : (if (get calls (followingId id)).isSome then
        searchCallId calls fuel (followingId id) else some (followingId id)) = none := h
    split_ifs at hstep with hused
    intro j hj
    cases j with
    | zero =>
      rw [triedId_zero]
      exact hused
    | succ j =>
      rw [← triedId_following]
      exact ih hstep j (by omega)

theorem searchCallId_some {fuel id found : ℕ}
    (h : searchCallId calls fuel id = some found) : get calls found = none := by
  induction fuel generalizing id with
  | zero => cases h
  | succ fuel ih =>
    have hstep : (if (get calls (followingId id)).isSome then
        searchCallId calls fuel (followingId id) else some (followingId id)) = some found := h
    split_ifs at hstep with hused
    · exact ih hstep
    · cases hstep
      simpa using hused

/-- The search finds a number while there are fewer calls than numbers. -/
theorem searchCallId_finds (h : calls.length < 0x7fffffff)
    (id : ℕ) : ∃ found, searchCallId calls (calls.length + 1) id = some found := by
  cases hsearch : searchCallId calls (calls.length + 1) id with
  | some found => exact ⟨found, rfl⟩
  | none =>
    have hused := searchCallId_none hsearch
    -- the tried numbers are different ones, and one more than the calls
    have hnodup : ((List.range (calls.length + 1)).map (triedId id)).Nodup := by
      apply List.Nodup.map_on _ List.nodup_range
      intro j hj k hk heq
      rw [List.mem_range] at hj hk
      unfold triedId at heq
      omega
    have hsubset : (List.range (calls.length + 1)).map (triedId id) ⊆ calls.map Prod.fst := by
      intro n hn
      obtain ⟨j, hj, rfl⟩ := List.mem_map.mp hn
      obtain ⟨call, hcall⟩ := Option.isSome_iff_exists.mp (hused j (List.mem_range.mp hj))
      exact List.mem_map.mpr ⟨_, mem_of_get hcall, rfl⟩
    have hlength := (hnodup.subperm hsubset).length_le
    rw [List.length_map, List.length_map, List.length_range] at hlength
    omega

/-! ### Sets -/

def submitted (x : ℤ × Int32) : ℤ × Bool × Bool :=
  (remoteFd x.1, x.2 &&& 0x001 ≠ 0, x.2 &&& 0x004 ≠ 0)

/-- After `epoll_ctl` the map of a set differs in the one descriptor, or nothing has changed. -/
def ControlsMap (t : HostTables) (env : HostEnv) (epfd operation fd : ℤ) (events : Int32) : Prop :=
  match t.epollCtl env epfd operation fd events with
  | (t', .error _) => t' = t
  | (t', .ok _) => ∃ i e entries, t.epollIndex env epfd = some i ∧
      t.epolls[i]? = some (some e) ∧ t' = t.setEpoll i { e with entries } ∧
      ∀ k, get entries k =
        if fd = k then (if operation = 2 then none else some events) else get e.entries k

def WaitSubmits (t : HostTables) (env : HostEnv) (epfd : ℤ) (e : EpollInstance) : Prop :=
  ∃ t' id call, t.epollWaitBegin env epfd = (t', .ok id) ∧ get t.calls id = none ∧
    get t'.calls id = some call ∧ call.settled = none ∧
    call.epollEntries.map (fun p => ((p.token : ℤ), p.read, p.write)) = e.entries.map submitted

structure EpollRight (t : HostTables) : Prop where
  distinct : ∀ e, some e ∈ t.epolls → Distinct e.entries
  bounded : ∀ e, some e ∈ t.epolls → e.entries.length ≤ epollEntryLimit
  opened : ∀ e, some e ∈ t.epolls → ∀ x ∈ e.entries, closedIn t.log (remoteFd x.1) = false
  controls : ∀ env epfd operation fd events, t.ControlsMap env epfd operation fd events
  /-- The asynchronous host is there, no wait is pending, and a call can have a number. -/
  waits : ∀ env epfd e, t.epollOf env epfd = some e → env.asynchronous = true →
    e.pendingCallId = 0 → t.calls.length < 0x7fffffff → t.WaitSubmits env epfd e

theorem controlsMap (harrays : t.Arrays) (env : HostEnv) (epfd operation fd : ℤ)
    (events : Int32) : t.ControlsMap env epfd operation fd events := by
  unfold ControlsMap
  rcases epollCtl_cases t env epfd operation fd events with
    ⟨err, herr⟩ | ⟨i, e, entries, hindex, he, -, hentries, hok⟩
  · rw [herr]
  · rw [hok]
    have hdistinct := harrays.distinct e (List.mem_of_getElem? he)
    refine ⟨i, e, entries, hindex, he, rfl, fun k => ?_⟩
    rcases ctlEntries_ok hentries with ⟨rfl, hfree, -, rfl⟩ | ⟨rfl, j, v, hj, rfl⟩ |
      ⟨rfl, j, v, hj, rfl⟩
    · exact get_append hfree events k
    · exact get_swapRemove hj hdistinct k
    · exact get_set_index hj hdistinct events k

theorem mapM_pollEntry {es : List (ℤ × Int32)} (h : ∀ x ∈ es, isRemoteFd x.1 = true) :
    ∃ polled, es.mapM pollEntry = some polled ∧
      polled.map (fun p => ((p.token : ℤ), p.read, p.write)) = es.map submitted := by
  induction es with
  | nil => exact ⟨[], rfl, rfl⟩
  | cons x es ih =>
    obtain ⟨polled, hpolled, hmap⟩ := ih fun y hy => h y (List.mem_cons_of_mem x hy)
    have hremote := h x List.mem_cons_self
    have hrange : taggedFdBase ≤ x.1 ∧ x.1 ≤ 0x7fffffff := of_decide_eq_true hremote
    obtain ⟨p, hp, htoken⟩ : ∃ p, pollEntry x = some p ∧
        ((p.token : ℤ), p.read, p.write) = submitted x := by
      refine ⟨_, dif_pos hrange, ?_⟩
      unfold submitted remoteFd
      rw [if_pos hremote]
      refine Prod.ext ?_ rfl
      show (((x.1 - taggedFdBase).toNat : ℕ) : ℤ) = x.1 - taggedFdBase
      omega
    refine ⟨p :: polled, ?_, ?_⟩
    · rw [List.mapM_cons, hp, hpolled]
      rfl
    · rw [List.map_cons, List.map_cons, htoken, hmap]

theorem waitSubmits (hopen : t.Open) {epfd : ℤ} {e : EpollInstance}
    (he : t.epollOf env epfd = some e) (hasync : env.asynchronous = true)
    (hpending : e.pendingCallId = 0) (hcalls : t.calls.length < 0x7fffffff) :
    t.WaitSubmits env epfd e := by
  obtain ⟨i, hindex, hjoin⟩ := Option.bind_eq_some_iff.mp he
  obtain ⟨polled, hpolled, hmap⟩ := mapM_pollEntry fun x hx => (hopen e (epollOf_mem he) x hx).1
  obtain ⟨id, hid⟩ := searchCallId_finds hcalls t.nextCallId
  have hbegin : t.waitBeginJs env e.entries = ({ t with
      nextCallId := id
      calls := OrderedMap.set t.calls id ⟨env.contextId, polled, none⟩ }, .ok id) := by
    unfold waitBeginJs beginCall
    rw [if_pos hasync, hpolled]
    dsimp only
    rw [hid]
  let begun : HostTables :=
    { t with
        nextCallId := id
        calls := OrderedMap.set t.calls id ⟨env.contextId, polled, none⟩ }
  refine ⟨begun.setEpoll i { e with pendingCallId := id }, id, ⟨env.contextId, polled, none⟩, ?_,
    searchCallId_some hid, ?_, rfl, hmap⟩
  · unfold epollWaitBegin
    rw [hindex]
    dsimp only
    rw [hjoin]
    dsimp only
    rw [if_neg (by omega), hbegin]
  · exact get_set_self t.calls id _

/-! ### Runs -/

theorem arrays_open_of_careful
    (h : Runs hostStep (fun t s => t.Careful s.1 s.2) HostTables.start t) :
    t.Arrays ∧ t.Open := by
  refine Runs.invariant h (fun t => t.Arrays ∧ t.Open) ⟨arrays_start, open_start⟩ ?_
  intro v s w hv hcareful hstep
  cases hstep
  have hedits : Edits True v (v.after s.1 s.2) :=
    after_edits s.1 s.2 hv.1 (fun _ => hv.2) fun _ => hcareful
  exact ⟨hedits.arrays hv.1, hedits.isOpen trivial hv.1 hv.2⟩

/-- The sets are right in every state of a run whose steps are careful. -/
theorem epollRight_of_careful
    (h : Runs hostStep (fun t s => t.Careful s.1 s.2) HostTables.start t) : t.EpollRight := by
  obtain ⟨harrays, hopen⟩ := arrays_open_of_careful h
  exact {
    distinct := harrays.distinct
    bounded := harrays.bounded
    opened := fun e he x hx => (hopen e he x hx).2
    controls := fun env epfd operation fd events => controlsMap harrays env epfd operation fd events
    waits := fun env epfd e he hasync hpending hcalls =>
      waitSubmits hopen he hasync hpending hcalls }

def standardEnv : HostEnv := ⟨7, true, true, fun _ => none⟩

/-- A set with a descriptor of the host. -/
theorem epollRight_of_careful_one :
    EpollRight ((HostTables.start.after standardEnv .epollCreate).after standardEnv
      (.epollCtl epollFdBase 1 (taggedFdBase + 3) 1)) :=
  epollRight_of_careful
    ((Runs.refl.tail (a := (standardEnv, .epollCreate)) trivial rfl).tail
      (a := (standardEnv, .epollCtl epollFdBase 1 (taggedFdBase + 3) 1))
      (fun _ _ _ => ⟨by decide, rfl⟩) rfl)

/-- The set takes descriptor 0, and then cannot be waited on. -/
theorem standard_descriptor_breaks_set :
    ¬ ∀ t, Reachable hostStep HostTables.start t → t.EpollRight := by
  intro h
  have hrun : Reachable hostStep HostTables.start
      ((HostTables.start.after standardEnv .epollCreate).after standardEnv
        (.epollCtl epollFdBase 1 0 1)) :=
    (Runs.refl.tail (a := (standardEnv, .epollCreate)) trivial rfl).tail
      (a := (standardEnv, .epollCtl epollFdBase 1 0 1)) trivial rfl
  obtain ⟨t', id, call, hwait, -⟩ := (h _ hrun).waits standardEnv epollFdBase
    ⟨standardEnv.context, 0, [(0, 1)]⟩ rfl rfl rfl (by decide)
  have herror : ((HostTables.start.after standardEnv .epollCreate).after standardEnv
      (.epollCtl epollFdBase 1 0 1)).epollWaitBegin standardEnv epollFdBase =
      ((HostTables.start.after standardEnv .epollCreate).after standardEnv
        (.epollCtl epollFdBase 1 0 1), .error .EBADF) := rfl
  rw [herror] at hwait
  cases hwait

end HostTables

end TraceJvm
