import Mathlib.Data.List.Perm.Subperm
import TraceJvm.HostArrays

/-! Polls of inotify instances: what an answer of the host about the polled descriptors leads to,
where watches may have come and gone since the poll began. -/
namespace TraceJvm

open OrderedMap ArrayMap Transition List

namespace HostTables

variable {t u : HostTables} {owner : ℕ} {wakeFd : ℤ}

/-! ### Marking -/

def watchKey (x : Option InotifyWatch) : Option (ℕ × ℤ) := x.map fun w => (w.owner, w.fd)

theorem watchIndex_eq (t : HostTables) (owner : ℕ) (wd : ℤ) :
    t.watchIndex owner wd =
      (t.watches.map watchKey).findIdx? fun key => key = some (owner, wd) := by
  unfold watchIndex
  rw [findIdx?_map]
  congr 1
  funext x
  cases x with
  | none => rfl
  | some w => simp [watchKey]

theorem watchIndex_some {wd : ℤ} {k : ℕ} (h : t.watchIndex owner wd = some k) :
    ∃ w, t.watches[k]? = some (some w) ∧ w.owner = owner ∧ w.fd = wd := by
  obtain ⟨hlt, hfound, -⟩ := findIdx?_eq_some_iff_getElem.mp h
  cases hw : t.watches[k] with
  | none =>
    rw [hw] at hfound
    cases hfound
  | some w =>
    rw [hw] at hfound
    obtain ⟨howner, hfd⟩ := of_decide_eq_true hfound
    exact ⟨w, by rw [getElem?_eq_getElem hlt, hw], howner, hfd⟩

def mark (t : HostTables) (k : ℕ) : HostTables :=
  { t with watches := t.watches.modify k (Option.map fun w => { w with ready := true }) }

theorem watchIndex_mark (t : HostTables) (k : ℕ) (wd : ℤ) :
    (t.mark k).watchIndex owner wd = t.watchIndex owner wd := by
  have hkeys : (t.mark k).watches.map watchKey = t.watches.map watchKey := by
    apply ext_getElem?
    intro j
    unfold mark
    rw [getElem?_map, getElem?_map, getElem?_modify]
    split_ifs
    · cases t.watches[j]? with
      | none => rfl
      | some x => cases x <;> rfl
    · simp
  rw [watchIndex_eq, watchIndex_eq, hkeys]

theorem mark_get {k₀ k : ℕ} {w : InotifyWatch} (hw : t.watches[k]? = some (some w)) :
    (t.mark k₀).watches[k]? = some (some (if k₀ = k then { w with ready := true } else w)) := by
  unfold mark
  rw [getElem?_modify, hw, Option.map_eq_map, Option.map_some]
  split_ifs
  · rfl
  · rfl

def Marks (t : HostTables) (owner : ℕ) (wakeFd : ℤ) (events : List (ℕ × ℕ)) (k : ℕ) : Prop :=
  ∃ ev ∈ events, (ev.2 : ℤ) ≠ wakeFd ∧ t.watchIndex owner ev.2 = some k

theorem markReady_cons (ev : ℕ × ℕ) (events : List (ℕ × ℕ)) (result : ℕ) :
    markReady owner wakeFd (ev :: events) t result =
      if (ev.2 : ℤ) = wakeFd then markReady owner wakeFd events t (result ||| 2)
      else
        match t.watchIndex owner ev.2 with
        | none => (t, .error .EPROTO)
        | some k => markReady owner wakeFd events (t.mark k) (result ||| 1) := rfl

/-- The loop over ready descriptors which are all known. -/
theorem markReady_known {events : List (ℕ × ℕ)} (result : ℕ)
    (h : ∀ ev ∈ events, (ev.2 : ℤ) = wakeFd ∨ t.watchIndex owner ev.2 ≠ none) :
    ∃ n watches, markReady owner wakeFd events t result = ({ t with watches }, .ok n) ∧
      (n.testBit 1 = true ↔ result.testBit 1 = true ∨ ∃ ev ∈ events, (ev.2 : ℤ) = wakeFd) ∧
      ∀ k w, t.watches[k]? = some (some w) →
        (t.Marks owner wakeFd events k → watches[k]? = some (some { w with ready := true })) ∧
        (¬ t.Marks owner wakeFd events k → watches[k]? = some (some w)) := by
  induction events generalizing t result with
  | nil =>
    refine ⟨result, t.watches, rfl, ?_, fun k w hw => ⟨?_, fun _ => hw⟩⟩
    · simp
    · rintro ⟨ev, hev, -⟩
      exact absurd hev not_mem_nil
  | cons ev events ih =>
    have hrest : ∀ ev' ∈ events, (ev'.2 : ℤ) = wakeFd ∨ t.watchIndex owner ev'.2 ≠ none :=
      fun ev' hev' => h ev' (mem_cons_of_mem _ hev')
    rw [markReady_cons]
    by_cases hwake : (ev.2 : ℤ) = wakeFd
    · rw [if_pos hwake]
      obtain ⟨n, watches, heq, hbit, hwatches⟩ := ih (result ||| 2) hrest
      refine ⟨n, watches, heq, ?_, fun k w hw => ?_⟩
      · rw [hbit]
        have htwo : Nat.testBit 2 1 = true := rfl
        simp [Nat.testBit_or, hwake, htwo]
      · have hmarks : t.Marks owner wakeFd (ev :: events) k ↔ t.Marks owner wakeFd events k := by
          unfold Marks
          simp [hwake]
        rw [hmarks]
        exact hwatches k w hw
    · rw [if_neg hwake]
      obtain ⟨k₀, hk₀⟩ := Option.ne_none_iff_exists'.mp ((h ev mem_cons_self).resolve_left hwake)
      rw [hk₀]
      dsimp only
      have hmarkedRest : ∀ ev' ∈ events,
          (ev'.2 : ℤ) = wakeFd ∨ (t.mark k₀).watchIndex owner ev'.2 ≠ none := by
        intro ev' hev'
        rw [watchIndex_mark]
        exact hrest ev' hev'
      obtain ⟨n, watches, heq, hbit, hwatches⟩ := ih (result ||| 1) hmarkedRest
      refine ⟨n, watches, heq, ?_, fun k w hw => ?_⟩
      · rw [hbit]
        have hone : Nat.testBit 1 1 = false := rfl
        simp [Nat.testBit_or, hwake, hone]
      · have hmarks : t.Marks owner wakeFd (ev :: events) k ↔
            k₀ = k ∨ t.Marks owner wakeFd events k := by
          unfold Marks
          simp [hwake, hk₀]
        have hrestMarks : (t.mark k₀).Marks owner wakeFd events k ↔
            t.Marks owner wakeFd events k := by
          unfold Marks
          simp only [watchIndex_mark]
        rw [hmarks]
        by_cases hk : k₀ = k
        · subst hk
          have hmarked : (t.mark k₀).watches[k₀]? = some (some { w with ready := true }) := by
            rw [mark_get hw, if_pos rfl]
          obtain ⟨hyes, hno⟩ := hwatches k₀ _ hmarked
          refine ⟨fun _ => ?_, fun hnot => absurd (Or.inl rfl) hnot⟩
          by_cases hagain : (t.mark k₀).Marks owner wakeFd events k₀
          · exact hyes hagain
          · exact hno hagain
        · have hkept : (t.mark k₀).watches[k]? = some (some w) := by
            rw [mark_get hw, if_neg hk]
          rw [or_iff_right hk, ← hrestMarks]
          exact hwatches k w hkept

theorem markReady_unknown {events : List (ℕ × ℕ)} (result : ℕ)
    (h : ∃ ev ∈ events, (ev.2 : ℤ) ≠ wakeFd ∧ t.watchIndex owner ev.2 = none) :
    (markReady owner wakeFd events t result).2 = .error .EPROTO := by
  induction events generalizing t result with
  | nil =>
    obtain ⟨ev, hev, -⟩ := h
    exact absurd hev not_mem_nil
  | cons ev events ih =>
    rw [markReady_cons]
    obtain ⟨ev', hev', hwake, hnone⟩ := h
    rcases mem_cons.mp hev' with rfl | hmem
    · rw [if_neg hwake, hnone]
    · split_ifs
      · exact ih _ ⟨ev', hmem, hwake, hnone⟩
      · split
        · rfl
        · exact ih _ ⟨ev', hmem, hwake, by rw [watchIndex_mark]; exact hnone⟩

/-! ### Answers -/

/-- A well-formed answer to the poll of some entries: it is about some of them, each once, and
repeats their descriptors. -/
structure Answers (polled about : List PollEntry) (returned : List JsValue) (value : JsValue) :
    Prop where
  entries : value.guarded "entries" = .array returned
  each : List.Forall₂ (fun p e => e.truthy ∧ ∀ token : ℕ,
    (e.property "fd").isInteger token = decide (p.token = token)) about returned
  polled : ∀ p ∈ about, p ∈ polled
  once : (about.map PollEntry.token).Nodup

def readyFds (about : List PollEntry) (returned : List JsValue) : List ℕ :=
  ((about.zip returned).filter fun r => epollFlags r.2 ≠ 0).map fun r => r.1.token + remoteFdBase

def waiting (t : HostTables) (callId : ℕ) : Option (ℕ × InotifyInstance) :=
  (t.inotifies.findIdx? fun x => x.any fun i => i.pendingCallId = callId).bind fun owner =>
    t.inotifies[owner]?.join.map (owner, ·)

/-- The poll succeeds, marks each watch that is ready and no other, and says whether the
descriptor for waking up is ready. -/
def PollRight (t : HostTables) (callId owner : ℕ) (wakeFd : ℤ) (ready : List ℕ) : Prop :=
  ∃ t' n, t.inotifyPollPoll callId = (t', some (.ok n)) ∧
    (n.testBit 1 = true ↔ ∃ fd ∈ ready, (fd : ℤ) = wakeFd) ∧
    ∀ (k : ℕ) (w : InotifyWatch), t.watches[k]? = some (some w) →
      ((w.owner = owner ∧ ∃ fd ∈ ready, (fd : ℤ) = w.fd) →
        t'.watches[k]? = some (some { w with ready := true })) ∧
      (¬ (w.owner = owner ∧ ∃ fd ∈ ready, (fd : ℤ) = w.fd) → t'.watches[k]? = some (some w))

/-- What is ready is the descriptor for waking up or that of a watch, and a watch that is not
marked yet has its descriptor for itself. -/
def StillWatched (t : HostTables) (owner : ℕ) (wakeFd : ℤ) (ready : List ℕ) : Prop :=
  (∀ fd ∈ ready, (fd : ℤ) = wakeFd ∨ t.watchIndex owner fd ≠ none) ∧
    ∀ (k : ℕ) (w : InotifyWatch), t.watches[k]? = some (some w) → w.owner = owner →
      (∃ fd ∈ ready, (fd : ℤ) = w.fd) →
        w.ready = true ∨ w.fd ≠ wakeFd ∧ t.watchIndex owner w.fd = some k

/-- A well-formed answer fits into the buffer of the poll. -/
theorem answers_events {polled about : List PollEntry} {returned : List JsValue} {value : JsValue}
    (h : Answers polled about returned value) (hpolled : polled.length ≤ epollEntryLimit) :
    ∃ events, TraceJvm.epollWaitPoll polled (inotifyWatchLimit + 1) (.ok value) = some events ∧
      events.map Prod.snd = readyFds about returned := by
  have hsubset : about.map PollEntry.token ⊆ polled.map PollEntry.token := by
    intro token htoken
    obtain ⟨p, hp, rfl⟩ := mem_map.mp htoken
    exact mem_map_of_mem (h.polled p hp)
  have hlength := (List.Nodup.subperm h.once hsubset).length_le
  rw [length_map, length_map] at hlength
  refine ⟨readyEvents (inotifyWatchLimit + 1) about returned, ?_, ?_⟩
  · unfold TraceJvm.epollWaitPoll
    dsimp only
    rw [h.entries]
    exact epollReady_eq h.polled h.each
  · have hfits : ((about.zip returned).filter fun r => epollFlags r.2 ≠ 0).length ≤
        inotifyWatchLimit + 1 := by
      have hfilter := length_filter_le (fun r => decide (epollFlags r.2 ≠ 0)) (about.zip returned)
      rw [length_zip] at hfilter
      unfold epollEntryLimit at hpolled
      unfold inotifyWatchLimit
      omega
    unfold readyEvents readyFds
    rw [take_of_length_le hfits, map_map]
    rfl

section Poll

variable {callId : ℕ} {i : InotifyInstance} {call : AsyncCall} {about : List PollEntry}
  {returned : List JsValue} {value : JsValue}

/-- The poll of an instance whose call has been answered. -/
theorem inotifyPollPoll_answered (harrays : t.Arrays)
    (hwaiting : t.waiting callId = some (owner, i))
    (hcall : get t.calls callId = some call) (hsettled : call.settled = some (.ok value))
    (hanswers : Answers call.epollEntries about returned value) :
    ∃ u events, u.watches = t.watches ∧ events.map Prod.snd = readyFds about returned ∧
      t.inotifyPollPoll callId = ((markReady owner i.wakeFd events u 0).1,
        some (markReady owner i.wakeFd events u 0).2) := by
  obtain ⟨events, hevents, hfds⟩ :=
    answers_events hanswers (harrays.calls _ (mem_of_get hcall))
  obtain ⟨k, hfound, hmap⟩ := Option.bind_eq_some_iff.mp hwaiting
  obtain ⟨j, hj, hpair⟩ := Option.map_eq_some_iff.mp hmap
  obtain ⟨rfl, rfl⟩ := Prod.mk.inj hpair
  refine ⟨(t.endCall callId).setInotify k { j with pendingCallId := 0 }, events, rfl, hfds, ?_⟩
  have hpoll : t.epollWaitPoll callId (inotifyWatchLimit + 1) =
      (t.endCall callId, some (.ok events)) := by
    unfold epollWaitPoll
    rw [hcall]
    dsimp only
    rw [hsettled]
    dsimp only
    rw [hevents]
  unfold inotifyPollPoll
  rw [hfound]
  dsimp only
  rw [hj]
  dsimp only
  rw [hpoll]

theorem watchIndex_congr (h : u.watches = t.watches) (wd : ℤ) :
    u.watchIndex owner wd = t.watchIndex owner wd := by
  unfold watchIndex
  rw [h]

/-- A poll is right precisely if what is ready is still watched. -/
theorem pollRight_iff_stillWatched (hrun : Reachable hostStep HostTables.start t)
    (hwaiting : t.waiting callId = some (owner, i)) (hcall : get t.calls callId = some call)
    (hsettled : call.settled = some (.ok value))
    (hanswers : Answers call.epollEntries about returned value) :
    t.PollRight callId owner i.wakeFd (readyFds about returned) ↔
      t.StillWatched owner i.wakeFd (readyFds about returned) := by
  obtain ⟨u, events, hwatches, hfds, hpoll⟩ :=
    inotifyPollPoll_answered (arrays_reachable hrun) hwaiting hcall hsettled hanswers
  have hready : ∀ P : ℕ → Prop, (∃ fd ∈ readyFds about returned, P fd) ↔ ∃ ev ∈ events, P ev.2 := by
    intro P
    rw [← hfds]
    constructor
    · rintro ⟨fd, hfd, hP⟩
      obtain ⟨ev, hev, rfl⟩ := mem_map.mp hfd
      exact ⟨ev, hev, hP⟩
    · rintro ⟨ev, hev, hP⟩
      exact ⟨ev.2, mem_map_of_mem hev, hP⟩
  by_cases hknown : ∀ fd ∈ readyFds about returned,
      (fd : ℤ) = i.wakeFd ∨ t.watchIndex owner fd ≠ none
  · have hevents : ∀ ev ∈ events, (ev.2 : ℤ) = i.wakeFd ∨ u.watchIndex owner ev.2 ≠ none := by
      intro ev hev
      rw [watchIndex_congr hwatches]
      apply hknown
      rw [← hfds]
      exact mem_map_of_mem hev
    obtain ⟨n, watches, heq, hbit, hmarked⟩ := markReady_known 0 hevents
    have hzero : Nat.testBit 0 1 = false := rfl
    rw [heq] at hpoll
    rw [hzero, ← hready fun fd => (fd : ℤ) = i.wakeFd] at hbit
    simp only [Bool.false_eq_true, false_or] at hbit
    rw [hwatches] at hmarked
    have hmarks : ∀ k, u.Marks owner i.wakeFd events k ↔ ∃ fd ∈ readyFds about returned,
        (fd : ℤ) ≠ i.wakeFd ∧ t.watchIndex owner fd = some k := by
      intro k
      unfold Marks
      simp only [watchIndex_congr hwatches]
      exact (hready fun fd => (fd : ℤ) ≠ i.wakeFd ∧ t.watchIndex owner fd = some k).symm
    have hself : ∀ (k : ℕ) (w : InotifyWatch), t.watches[k]? = some (some w) →
        u.Marks owner i.wakeFd events k → w.owner = owner ∧ (∃ fd ∈ readyFds about returned,
          (fd : ℤ) = w.fd) ∧ w.fd ≠ i.wakeFd ∧ t.watchIndex owner w.fd = some k := by
      intro k w hw hk
      obtain ⟨fd, hfd, hwake, hindex⟩ := (hmarks k).mp hk
      obtain ⟨w', hw', howner, hfd'⟩ := watchIndex_some hindex
      cases Option.some.inj (hw.symm.trans hw')
      exact ⟨howner, ⟨fd, hfd, hfd'.symm⟩, by rwa [hfd'], by rwa [hfd']⟩
    constructor
    · rintro ⟨t', n', hresult, -, hright⟩
      refine ⟨hknown, fun k w hw howner hfd => ?_⟩
      cases hpoll.symm.trans hresult
      have hset := (hright k w hw).1 ⟨howner, hfd⟩
      by_cases hk : u.Marks owner i.wakeFd events k
      · exact Or.inr (hself k w hw hk).2.2
      · have hkept := (hmarked k w hw).2 hk
        have heq' := Option.some.inj (Option.some.inj (hset.symm.trans hkept))
        exact Or.inl (by rw [← heq'])
    · rintro ⟨-, hown⟩
      refine ⟨_, n, hpoll, hbit, fun k w hw => ⟨?_, fun hnot => ?_⟩⟩
      · rintro ⟨howner, hfd⟩
        rcases hown k w hw howner hfd with hmarkedBefore | ⟨hwake, hindex⟩
        · have hsame : { w with ready := true } = w := by
            cases w
            simp_all
          by_cases hk : u.Marks owner i.wakeFd events k
          · exact (hmarked k w hw).1 hk
          · rw [hsame]
            exact (hmarked k w hw).2 hk
        · obtain ⟨fd, hmem, heqFd⟩ := hfd
          refine (hmarked k w hw).1 ((hmarks k).mpr ⟨fd, hmem, ?_, ?_⟩)
          · rwa [heqFd]
          · rwa [heqFd]
      · refine (hmarked k w hw).2 fun hk => hnot ?_
        obtain ⟨howner, hfd, -⟩ := hself k w hw hk
        exact ⟨howner, hfd⟩
  · refine iff_of_false ?_ fun hstill => hknown hstill.1
    rintro ⟨t', n, hresult, -⟩
    have herror : (markReady owner i.wakeFd events u 0).2 = .error .EPROTO := by
      apply markReady_unknown
      simp only [watchIndex_congr hwatches]
      apply (hready fun fd => (fd : ℤ) ≠ i.wakeFd ∧ t.watchIndex owner fd = none).mp
      push Not at hknown
      obtain ⟨fd, hfd, hwake, hindex⟩ := hknown
      exact ⟨fd, hfd, hwake, hindex⟩
    rw [herror] at hpoll
    rw [hpoll] at hresult
    cases hresult

end Poll

/-! ### Two polls -/

def pollEnv : HostEnv := ⟨7, true, true, fun _ => none⟩

/-- `/` is watched as descriptor 3 of the host, and the poll for it and for waking up begins. -/
def pollSteps : List (HostEnv × HostOp) :=
  [(pollEnv, .inotifyInit),
    (pollEnv, .inotifyAddWatch inotifyFdBase (some [47]) 2 ⟨some, true, some 3⟩),
    (pollEnv, .inotifyPollBegin inotifyFdBase (taggedFdBase + 4))]

def removeStep : HostEnv × HostOp := (pollEnv, .inotifyRmWatch inotifyFdBase (taggedFdBase + 3))

def pollAnswer : JsValue :=
  .object [("entries", .array [.object [("fd", .integer 3), ("read", .boolean true)]])]

def answerStep : HostEnv × HostOp := (pollEnv, .settle 1 (.ok pollAnswer))

def tablesAfter (steps : List (HostEnv × HostOp)) : HostTables :=
  steps.foldl (fun t s => t.after s.1 s.2) HostTables.start

theorem tablesAfter_reachable (steps : List (HostEnv × HostOp)) :
    Reachable hostStep HostTables.start (tablesAfter steps) := by
  have hrun : ∀ (t : HostTables), run hostStep t steps =
      some (steps.foldl (fun t s => t.after s.1 s.2) t) := by
    induction steps with
    | nil => exact fun t => rfl
    | cons s steps ih => exact fun t => ih _
  exact reachable_of_run (hrun HostTables.start)

def watchEntry : PollEntry := ⟨3, true, false, by decide⟩

def wakeEntry : PollEntry := ⟨4, true, false, by decide⟩

theorem pollAnswer_wellFormed : Answers [watchEntry, wakeEntry] [watchEntry]
    [.object [("fd", .integer 3), ("read", .boolean true)]] pollAnswer := by
  refine ⟨rfl, .cons ⟨rfl, fun token => ?_⟩ .nil, ?_, nodup_singleton _⟩
  · show decide ((3 : ℤ) = token) = decide (3 = token)
    rw [decide_eq_decide]
    omega
  · exact fun p hp => mem_cons.mpr (Or.inl (mem_singleton.mp hp))

def pollInstance : InotifyInstance := ⟨7, epollFdBase, taggedFdBase + 4, 1, inner_epollFdBase⟩

set_option maxRecDepth 20000 in
/-- The watch is still there. -/
theorem pollRight_iff_stillWatched_kept :
    (tablesAfter (pollSteps ++ [answerStep])).PollRight 1 0 (taggedFdBase + 4)
      (readyFds [watchEntry] [.object [("fd", .integer 3), ("read", .boolean true)]]) := by
  have hwaiting : (tablesAfter (pollSteps ++ [answerStep])).waiting 1 =
      some (0, pollInstance) := rfl
  have hcall : get (tablesAfter (pollSteps ++ [answerStep])).calls 1 =
      some ⟨7, [watchEntry, wakeEntry], some (.ok pollAnswer)⟩ := rfl
  have hindex : (tablesAfter (pollSteps ++ [answerStep])).watchIndex 0 (taggedFdBase + 3) =
      some 0 := rfl
  have hwatches : (tablesAfter (pollSteps ++ [answerStep])).watches =
      some ⟨0, taggedFdBase + 3, 2, false, [47], by decide⟩ ::
        List.replicate (inotifyWatchLimit - 1) none := rfl
  refine (pollRight_iff_stillWatched (tablesAfter_reachable _) hwaiting hcall rfl
    pollAnswer_wellFormed).mpr ⟨fun fd hfd => Or.inr ?_, fun k w hw _ _ => Or.inr ?_⟩
  · obtain rfl := mem_singleton.mp hfd
    exact fun hnone => Option.some_ne_none 0 (hindex.symm.trans hnone)
  · rw [hwatches] at hw
    cases k with
    | zero =>
      cases Option.some.inj hw
      exact ⟨by decide, hindex⟩
    | succ k =>
      have hnone := eq_of_mem_replicate (mem_of_getElem? hw)
      cases hnone

set_option maxRecDepth 20000 in
/-- The watch has been removed since the poll began, and its readiness makes the poll fail. -/
theorem removed_watch_fails_poll :
    ¬ ∀ t callId owner i call about returned value, Reachable hostStep HostTables.start t →
      t.waiting callId = some (owner, i) → get t.calls callId = some call →
      call.settled = some (.ok value) → Answers call.epollEntries about returned value →
        t.PollRight callId owner i.wakeFd (readyFds about returned) := by
  intro h
  obtain ⟨t', n, hresult, -⟩ := h (tablesAfter (pollSteps ++ [removeStep, answerStep])) 1 0
    pollInstance ⟨7, [watchEntry, wakeEntry], some (.ok pollAnswer)⟩ _ _ pollAnswer
    (tablesAfter_reachable _) rfl rfl rfl pollAnswer_wellFormed
  have herror : ((tablesAfter (pollSteps ++ [removeStep, answerStep])).inotifyPollPoll 1).2 =
      some (.error .EPROTO) := rfl
  rw [hresult] at herror
  cases herror

end HostTables

end TraceJvm
