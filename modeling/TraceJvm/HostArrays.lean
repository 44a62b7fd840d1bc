import TraceJvm.HostEdits

/-! The arrays of entries are maps in every state of the tables, and in the states of careful runs
they have descriptors of the host only that are open. -/
namespace TraceJvm

open OrderedMap ArrayMap Transition List Option

namespace HostTables

variable {t t' u : HostTables} {env : HostEnv} {strict : Prop}

/-! ### What edits keep -/

structure Arrays (t : HostTables) : Prop where
  sized : t.Sized
  distinct : ∀ e, some e ∈ t.epolls → Distinct e.entries
  bounded : ∀ e, some e ∈ t.epolls → e.entries.length ≤ epollEntryLimit
  calls : ∀ c ∈ t.calls, c.2.epollEntries.length ≤ epollEntryLimit

def Open (t : HostTables) : Prop := ∀ e, some e ∈ t.epolls → ∀ x ∈ e.entries, t.Pollable x.1

theorem arrays_start : HostTables.start.Arrays := by
  have hnone : ∀ e, some e ∉ HostTables.start.epolls := fun e he =>
    absurd (eq_of_mem_replicate he) (by simp)
  refine ⟨⟨length_replicate, length_replicate, length_replicate, length_replicate⟩, ?_, ?_, ?_⟩
  · exact fun e he => absurd he (hnone e)
  · exact fun e he => absurd he (hnone e)
  · exact fun c hc => absurd hc not_mem_nil

theorem open_start : HostTables.start.Open := fun e he =>
  absurd (eq_of_mem_replicate he) (by simp)

theorem Frames.arrays (h : t.Frames t') (ht : t.Arrays) : t'.Arrays := by
  obtain ⟨hepolls, heventfds, hinotifies, hwatches⟩ := h.sizes
  refine ⟨⟨hepolls.trans ht.sized.epolls, heventfds.trans ht.sized.eventfds,
    hinotifies.trans ht.sized.inotifies, hwatches.trans ht.sized.watches⟩, ?_, ?_, ?_⟩
  · intro e' he'
    rcases h.sets e' he' with hempty | ⟨e, he, heq⟩
    · rw [hempty]
      exact nodup_nil
    · rw [heq]
      exact ht.distinct e he
  · intro e' he'
    rcases h.sets e' he' with hempty | ⟨e, he, heq⟩
    · rw [hempty]
      exact Nat.zero_le _
    · rw [heq]
      exact ht.bounded e he
  · intro c hc
    rcases h.calls c hc with hempty | ⟨c', hc', heq⟩ | ⟨e, he, heq⟩
    · rw [hempty]
      exact Nat.zero_le _
    · rw [heq]
      exact ht.calls c' hc'
    · rw [heq]
      exact ht.bounded e he

theorem Frames.isOpen (h : t.Frames t') (ht : t.Open) : t'.Open := by
  intro e' he' x hx
  rcases h.sets e' he' with hempty | ⟨e, he, heq⟩
  · rw [hempty] at hx
    exact absurd hx not_mem_nil
  · rw [heq] at hx
    obtain ⟨hremote, hopen⟩ := ht e he x hx
    exact ⟨hremote, by rw [h.log]; exact hopen⟩

variable {fd : ℤ}

/-- Entries that `epoll_ctl` has changed are a map within its limit, and only one can be new. -/
theorem ctlEntries_keeps {es es' : List (ℤ × Int32)} {operation : ℤ} {events : Int32}
    (h : ctlEntries es operation fd events = .ok es') (hes : Distinct es)
    (hlength : es.length ≤ epollEntryLimit) : Distinct es' ∧ es'.length ≤ epollEntryLimit ∧
      ∀ x ∈ es', (∃ y ∈ es, x.1 = y.1) ∨
        x.1 = fd ∧ operation = 1 ∧ get es fd = none ∧ es.length < epollEntryLimit := by
  rcases ctlEntries_ok h with ⟨rfl, hfree, hroom, rfl⟩ | ⟨rfl, i, v, hi, rfl⟩ | ⟨rfl, i, v, hi, rfl⟩
  · refine ⟨distinct_append hfree hes events, ?_, fun x hx => ?_⟩
    · rw [length_append, length_singleton]
      omega
    · rcases mem_append.mp hx with hold | hnew
      · exact Or.inl ⟨x, hold, rfl⟩
      · rw [mem_singleton.mp hnew]
        exact Or.inr ⟨rfl, rfl, hfree, hroom⟩
  · refine ⟨distinct_swapRemove hi hes, ?_, fun x hx => ?_⟩
    · have hless := length_swapRemove hi
      omega
    · exact Or.inl ⟨x, ((mem_swapRemove hi hes x).mp hx).1, rfl⟩
  · refine ⟨distinct_set hi hes events, by rwa [length_set], fun x hx => Or.inl ?_⟩
    rcases mem_or_eq_of_mem_set hx with hold | rfl
    · exact ⟨x, hold, rfl⟩
    · exact ⟨(fd, v), mem_of_getElem? hi, rfl⟩

theorem arrays_edit {ed : Edit} (hallowed : Allowed strict t ed) (hedit : edit t ed = some t')
    (h : t.Arrays) : t'.Arrays := by
  cases ed with
  | frame v =>
    cases hedit
    exact hallowed.arrays h
  | opened fd | closed fd =>
    cases hedit
    exact { h with
        sized := ⟨h.sized.epolls, h.sized.eventfds, h.sized.inotifies, h.sized.watches⟩ }
  | ctl env epfd operation fd events =>
    cases hedit
    rcases epollCtl_cases t env epfd operation fd events with
      ⟨err, herr⟩ | ⟨i, e, entries, -, he, -, hentries, hok⟩
    · rw [herr]
      exact h
    · rw [hok]
      have hmem : some e ∈ t.epolls := mem_of_getElem? he
      obtain ⟨hdistinct, hbounded, -⟩ :=
        ctlEntries_keeps hentries (h.distinct e hmem) (h.bounded e hmem)
      have hsets : ∀ e', some e' ∈ (t.setEpoll i { e with entries }).epolls →
          some e' ∈ t.epolls ∨ e'.entries = entries := by
        intro e' he'
        rcases mem_or_eq_of_mem_set he' with hold | heq
        · exact Or.inl hold
        · exact Or.inr (by rw [some.inj heq])
      refine ⟨⟨length_set.trans h.sized.epolls, h.sized.eventfds, h.sized.inotifies,
        h.sized.watches⟩, fun e' he' => ?_, fun e' he' => ?_, h.calls⟩
      · rcases hsets e' he' with hold | heq
        · exact h.distinct e' hold
        · rwa [heq]
      · rcases hsets e' he' with hold | heq
        · exact h.bounded e' hold
        · rwa [heq]

theorem Edits.arrays (h : Edits strict t t') (ht : t.Arrays) : t'.Arrays :=
  Runs.invariant h Arrays ht fun _ _ _ hv hallowed hedit => arrays_edit hallowed hedit hv

variable {e : EpollInstance} {epfd : ℤ}

theorem epollOf_eq {i : ℕ} (hindex : t.epollIndex env epfd = some i)
    (he : t.epolls[i]? = some (some e)) : t.epollOf env epfd = some e := by
  unfold epollOf
  rw [hindex, Option.bind_some, he]
  rfl

theorem open_edit {ed : Edit} (hallowed : Allowed True t ed) (hedit : edit t ed = some t')
    (harrays : t.Arrays) (h : t.Open) : t'.Open := by
  cases ed with
  | frame v =>
    cases hedit
    exact hallowed.isOpen h
  | opened fd =>
    cases hedit
    intro e he x hx
    obtain ⟨hremote, hopen⟩ := h e he x hx
    refine ⟨hremote, ?_⟩
    show (if remoteFd fd = remoteFd x.1 then false else closedIn t.log (remoteFd x.1)) = false
    rw [hopen, ite_self]
  | closed fd =>
    cases hedit
    intro e he x hx
    obtain ⟨hremote, hopen⟩ := h e he x hx
    have hne := hallowed trivial e he x hx
    refine ⟨hremote, ?_⟩
    show (if remoteFd fd = remoteFd x.1 then true else closedIn t.log (remoteFd x.1)) = false
    rw [if_neg (Ne.symm hne), hopen]
  | ctl env epfd operation fd events =>
    cases hedit
    rcases epollCtl_cases t env epfd operation fd events with
      ⟨err, herr⟩ | ⟨i, e, entries, hindex, he, hroutes, hentries, hok⟩
    · rw [herr]
      exact h
    · rw [hok]
      have hmem : some e ∈ t.epolls := mem_of_getElem? he
      intro e' he' x hx
      rcases mem_or_eq_of_mem_set he' with hold | heq
      · exact h e' hold x hx
      · rw [some.inj heq] at hx
        obtain ⟨-, -, hfrom⟩ :=
          ctlEntries_keeps hentries (harrays.distinct e hmem) (harrays.bounded e hmem)
        rcases hfrom x hx with ⟨y, hy, hkey⟩ | ⟨hkey, hadd, hfree, hroom⟩
        · rw [hkey]
          exact h e hmem y hy
        · rw [hkey]
          exact hallowed trivial hadd hroutes ⟨e, epollOf_eq hindex he, hfree, hroom⟩

theorem Edits.isOpen (hedits : Edits strict t t') (hstrict : strict) (harrays : t.Arrays)
    (h : t.Open) : t'.Open := by
  have hboth := Runs.invariant hedits (fun v => v.Arrays ∧ v.Open) ⟨harrays, h⟩
    fun v ed w hv hallowed hedit => ⟨arrays_edit hallowed hedit hv.1,
      open_edit (by
        cases ed with
        | frame v => exact hallowed
        | opened fd => exact trivial
        | closed fd => exact fun _ => hallowed hstrict
        | ctl env epfd operation fd events => exact fun _ => hallowed hstrict) hedit hv.1 hv.2⟩
  exact hboth.2

/-! ### Operations on inotify instances -/

theorem remoteFd_inj {a b : ℤ} (ha : isRemoteFd a = true) (hb : isRemoteFd b = true)
    (h : remoteFd a = remoteFd b) : a = b := by
  unfold remoteFd at h
  rw [if_pos ha, if_pos hb] at h
  omega

theorem watchIndex_remote {owner : ℕ} {wd : ℤ} (h : t.watchIndex owner wd ≠ none) :
    isRemoteFd wd = true := by
  obtain ⟨k, hk⟩ := Option.ne_none_iff_exists'.mp h
  obtain ⟨hlt, hfound, -⟩ := findIdx?_eq_some_iff_getElem.mp hk
  cases hw : t.watches[k] with
  | none =>
    rw [hw] at hfound
    cases hfound
  | some w =>
    rw [hw] at hfound
    obtain ⟨-, rfl⟩ := of_decide_eq_true hfound
    exact w.remote

theorem epollCtl_deletes (he : t.epollOf env epfd = some e)
    (hroutes : env.routesFd fd = true) (hfd : get e.entries fd ≠ none) :
    (t.epollCtl env epfd 2 fd 0).2 = .ok () := by
  obtain ⟨i, hindex, hjoin⟩ := Option.bind_eq_some_iff.mp he
  obtain ⟨j, hj⟩ := Option.ne_none_iff_exists'.mp (mt indexOf_eq_none.mp hfd)
  have hentries : ctlEntries e.entries 2 fd 0 = .ok (swapRemove e.entries j) := by
    unfold ctlEntries
    rw [hj]
    rfl
  unfold epollCtl
  rw [hindex]
  dsimp only
  rw [hjoin]
  dsimp only
  rw [if_pos hroutes, hentries]

/-- After `EPOLL_CTL_DEL` the set has no entry of the descriptor. -/
theorem epollCtl_delete_unheld (harrays : t.Arrays) (hopen : t.Open)
    (hfd : isRemoteFd fd = true) (hbut : t.UnheldBut (t.epollIndex env epfd) fd) :
    (t.epollCtl env epfd 2 fd 0).1.Unheld fd := by
  have hroutes : env.routesFd fd = true := by
    unfold HostEnv.routesFd
    rw [hfd, Bool.true_or]
  -- entries of other descriptors of the host have other numbers there
  have hother : ∀ e, some e ∈ t.epolls → ∀ x ∈ e.entries, x.1 ≠ fd → remoteFd x.1 ≠ remoteFd fd :=
    fun e he x hx hne heq => hne (remoteFd_inj (hopen e he x hx).1 hfd heq)
  rcases epollCtl_cases t env epfd 2 fd 0 with
    ⟨err, herr⟩ | ⟨i, e, entries, hindex, he, -, hentries, hok⟩
  · rw [herr]
    intro e' he' x hx
    obtain ⟨k, hk⟩ := mem_iff_getElem?.mp he'
    by_cases hset : t.epollIndex env epfd = some k
    · have hfree : get e'.entries fd = none := by
        by_contra hsome
        have hdeletes := epollCtl_deletes (epollOf_eq hset hk) hroutes hsome
        rw [herr] at hdeletes
        cases hdeletes
      exact hother e' he' x hx (get_eq_none.mp hfree x hx)
    · exact hbut k e' hk hset x hx
  · rw [hok]
    have hmem : some e ∈ t.epolls := mem_of_getElem? he
    obtain ⟨j, v, hj, rfl⟩ : ∃ j v, e.entries[j]? = some (fd, v) ∧
        entries = swapRemove e.entries j := by
      rcases ctlEntries_ok hentries with ⟨hadd, -⟩ | ⟨-, hdelete⟩ | ⟨hmodify, -⟩
      · cases hadd
      · exact hdelete
      · cases hmodify
    intro e' he' x hx
    obtain ⟨k, hk⟩ := mem_iff_getElem?.mp he'
    change (t.epolls.set i _)[k]? = _ at hk
    by_cases hik : i = k
    · subst hik
      obtain ⟨hlt, -⟩ := List.getElem?_eq_some_iff.mp he
      rw [getElem?_set_self hlt] at hk
      cases some.inj hk
      obtain ⟨hold, hne⟩ := (mem_swapRemove hj (harrays.distinct e hmem) x).mp hx
      exact hother e hmem x hold hne
    · rw [getElem?_set_ne hik] at hk
      exact hbut k e' hk (fun heq => hik (some.inj (hindex.symm.trans heq))) x hx

theorem inotifyRmWatch_edits (env : HostEnv) (ifd wd : ℤ) (harrays : t.Arrays)
    (hopen : strict → t.Open) (hcareful : strict → t.Careful env (.inotifyRmWatch ifd wd)) :
    Edits strict t (t.inotifyRmWatch env ifd wd).1 := by
  unfold HostTables.inotifyRmWatch
  split
  · exact .refl
  · rename_i owner hindex
    split
    · exact .refl
    · exact .refl
    · rename_i i k hi hwatch
      have hne : t.watchIndex owner wd ≠ none := by
        rw [hwatch]
        simp
      have hdeleted : Edits strict t (t.epollCtl env i.epollFd 2 wd 0).1 :=
        Edits.ctl .refl env i.epollFd 2 wd 0 fun _ hadd => by cases hadd
      have hclosed := hdeleted.closed wd fun hs =>
        epollCtl_delete_unheld harrays (hopen hs) (watchIndex_remote hne)
          (hcareful hs owner i (inotifyOf_some hindex hi) hne)
      exact hclosed.frame (.of_tables _ _ _ rfl rfl length_set)

theorem epollCtl_log (t : HostTables) (env : HostEnv) (epfd operation fd : ℤ) (events : Int32) :
    (t.epollCtl env epfd operation fd events).1.log = t.log := by
  rcases epollCtl_cases t env epfd operation fd events with
    ⟨err, herr⟩ | ⟨i, e, entries, -, -, -, -, hok⟩
  · rw [herr]
  · rw [hok]
    rfl

theorem epollOf_setEpoll {k : ℕ}
    (hindex : t.epollIndex env epfd = some k) (he : t.epolls[k]? = some (some e))
    (entries : List (ℤ × Int32)) :
    (t.setEpoll k { e with entries }).epollOf env epfd = some { e with entries } := by
  obtain ⟨hrange, hk, e₀, he₀, hcontext⟩ := epollIndex_some hindex
  cases some.inj (he.symm.trans he₀)
  obtain ⟨hlt, -⟩ := List.getElem?_eq_some_iff.mp he
  have hget : (t.setEpoll k { e with entries }).epolls[k]? = some (some { e with entries }) :=
    getElem?_set_self hlt
  refine epollOf_eq ?_ hget
  unfold epollIndex
  rw [if_pos hrange, ← hk, hget]
  exact if_pos hcontext

/-- The room for the new wake-up descriptor was there, or is that of the old one. -/
theorem takesWake_of_takes (harrays : t.Arrays) {i : InotifyInstance} {wakeFd : ℤ}
    (hwake : i.wakeFd ≠ wakeFd)
    (h : (t.epollCtl env i.epollFd 2 i.wakeFd 0).1.Takes env i.epollFd wakeFd) :
    t.TakesWake env i wakeFd := by
  obtain ⟨e', he', hfree, hroom⟩ := h
  rcases epollCtl_cases t env i.epollFd 2 i.wakeFd 0 with
    ⟨err, herr⟩ | ⟨k, e, entries, hindex, he, -, hentries, hok⟩
  · rw [herr] at he'
    exact ⟨e', he', hfree, Or.inl hroom⟩
  · rw [hok, epollOf_setEpoll hindex he] at he'
    cases he'
    obtain ⟨j, v, hj, rfl⟩ : ∃ j v, e.entries[j]? = some (i.wakeFd, v) ∧
        entries = swapRemove e.entries j := by
      rcases ctlEntries_ok hentries with ⟨hadd, -⟩ | ⟨-, hdelete⟩ | ⟨hmodify, -⟩
      · cases hadd
      · exact hdelete
      · cases hmodify
    have hdistinct := harrays.distinct e (mem_of_getElem? he)
    refine ⟨e, epollOf_eq hindex he, ?_, Or.inr ?_⟩
    · rw [get_swapRemove hj hdistinct, if_neg hwake] at hfree
      exact hfree
    · rw [get_of_mem hdistinct (mem_of_getElem? hj)]
      rfl

theorem Edits.setInotify (h : Edits strict t u) (k : ℕ) (i : InotifyInstance) :
    Edits strict t (u.setInotify k i) :=
  h.frame (.of_tables _ _ _ rfl length_set rfl)

theorem setWakeFd_edits (env : HostEnv) (k : ℕ) (i : InotifyInstance) (wakeFd : ℤ)
    (harrays : t.Arrays) (hcareful : strict → env.routesFd wakeFd = true → i.wakeFd ≠ wakeFd →
      t.TakesWake env i wakeFd → t.Pollable wakeFd) :
    Edits strict t (t.setWakeFd env k i wakeFd).1 := by
  unfold setWakeFd
  by_cases hsame : i.wakeFd = wakeFd
  · rw [if_pos hsame]
    exact .refl
  · rw [if_neg hsame]
    have hremoved : ∃ u r, (if 0 ≤ i.wakeFd then t.epollCtl env i.epollFd 2 i.wakeFd 0
        else (t, .ok ())) = (u, r) ∧ Edits strict t u ∧ u.log = t.log ∧
        (u.Takes env i.epollFd wakeFd → t.TakesWake env i wakeFd) := by
      split_ifs with hold
      · have hdeleted : Edits strict t (t.epollCtl env i.epollFd 2 i.wakeFd 0).1 :=
          Edits.ctl .refl env i.epollFd 2 i.wakeFd 0 fun _ hadd => by cases hadd
        exact ⟨(t.epollCtl env i.epollFd 2 i.wakeFd 0).1, (t.epollCtl env i.epollFd 2 i.wakeFd 0).2,
          rfl, hdeleted, epollCtl_log t env _ _ _ _, takesWake_of_takes harrays hsame⟩
      · exact ⟨t, _, rfl, .refl, rfl, by
          rintro ⟨e, he, hfree, hroom⟩
          exact ⟨e, he, hfree, Or.inl hroom⟩⟩
    obtain ⟨u, r, heq, hedits, hlog, htakes⟩ := hremoved
    rw [heq]
    dsimp only
    have hadded := hedits.ctl env i.epollFd 1 wakeFd 0x001 fun hs _ hroutes htaken => by
      obtain ⟨hremote, hopen⟩ := hcareful hs hroutes hsame (htakes htaken)
      exact ⟨hremote, by rw [hlog]; exact hopen⟩
    generalize u.epollCtl env i.epollFd 1 wakeFd 0x001 = added at hadded ⊢
    obtain ⟨u', result⟩ := added
    cases result with
    | error err =>
      split
      · exact hadded
      · exact hadded
      · exact hedits
    | ok _ =>
      have hset : Edits strict t (u'.setInotify k { i with wakeFd }) :=
        hadded.frame (.of_tables _ _ _ rfl length_set rfl)
      split
      · exact hset
      · exact hset
      · exact hedits

theorem markReady_edits (owner : ℕ) (wakeFd : ℤ) (events : List (ℕ × ℕ)) (result : ℕ)
    (h : Edits strict t u) : Edits strict t (markReady owner wakeFd events u result).1 := by
  induction events generalizing u result with
  | nil => exact h
  | cons ev events ih =>
    obtain ⟨flags, fd⟩ := ev
    unfold markReady
    split_ifs
    · exact ih _ h
    · split
      · exact h
      · exact ih _ (h.frame (.of_tables _ _ _ rfl rfl (length_modify ..)))

theorem inotifyPollBegin_edits (env : HostEnv) (ifd wakeFd : ℤ) (harrays : t.Arrays)
    (hcareful : strict → t.Careful env (.inotifyPollBegin ifd wakeFd)) :
    Edits strict t (t.inotifyPollBegin env ifd wakeFd).1 := by
  unfold HostTables.inotifyPollBegin
  split
  · exact .refl
  · rename_i k hindex
    split
    · exact .refl
    · rename_i i hi
      split_ifs with hroutes hpending
      · exact .refl
      · have hwake := setWakeFd_edits env k i wakeFd harrays fun hs hroutes hne htakes =>
          hcareful hs k i (inotifyOf_some hindex hi) hroutes (by omega) hne htakes
        generalize t.setWakeFd env k i wakeFd = woken at hwake ⊢
        obtain ⟨u, result⟩ := woken
        cases result with
        | error err => exact hwake
        | ok j =>
          have hwait := Edits.epollWaitBegin hwake env j.epollFd
          dsimp only at hwait ⊢
          generalize u.epollWaitBegin env j.epollFd = begun at hwait ⊢
          obtain ⟨v, result⟩ := begun
          cases result with
          | error err => exact hwait
          | ok callId => exact hwait.setInotify k _
      · exact .refl

theorem inotifyPollPoll_edits (callId : ℕ) : Edits strict t (t.inotifyPollPoll callId).1 := by
  unfold HostTables.inotifyPollPoll
  split
  · exact .refl
  · split
    · exact .refl
    · rename_i i hi
      have hpoll : Edits strict t (t.epollWaitPoll callId (inotifyWatchLimit + 1)).1 :=
        Edits.frame .refl (epollWaitPoll_frames t callId _)
      generalize t.epollWaitPoll callId (inotifyWatchLimit + 1) = polled at hpoll ⊢
      obtain ⟨u, _ | err | events⟩ := polled
      · exact hpoll
      · exact hpoll.setInotify _ _
      · exact markReady_edits _ _ events 0 (hpoll.setInotify _ _)

theorem inotifyRead_edits (owner : ℕ) (buffer : Bool) (length : ℕ) (a : FrameAnswers) :
    Edits strict t (t.inotifyRead owner buffer length a).1 := by
  unfold HostTables.inotifyRead
  split_ifs
  · exact .refl
  · exact Edits.frame .refl (.of_tables _ _ _ rfl rfl length_mapIdx)

theorem mem_ownedWatches {owner : ℕ} {w : InotifyWatch} (h : w ∈ t.ownedWatches owner) :
    some w ∈ t.watches ∧ w.owner = owner := by
  obtain ⟨x, hx, hw⟩ := mem_filterMap.mp h
  obtain ⟨w', rfl, howner⟩ := Option.bind_eq_some_iff.mp hw
  split_ifs at howner with heq
  cases howner
  exact ⟨hx, heq⟩

theorem mem_eventfdClosings {stored : UInt32 → Bool} {x : Option EventDescriptor}
    {ev : DescriptorEvent} (h : ev ∈ eventfdClosings stored x) :
    ∃ d, x = some d ∧ stored d.context = true ∧
      (ev = .closed (remoteFd d.readFd) ∨ ev = .closed (remoteFd d.writeFd)) := by
  cases x with
  | none => exact absurd h not_mem_nil
  | some d =>
    unfold eventfdClosings at h
    dsimp only at h
    split_ifs at h with hstored
    · exact ⟨d, rfl, hstored, by simpa using h⟩
    · exact absurd h not_mem_nil

theorem disposeActiveContext_edits (env : HostEnv) (harrays : t.Arrays)
    (hcareful : strict → t.Careful env .disposeActiveContext) :
    Edits strict t (t.disposeActiveContext env) := by
  by_cases hcontext : env.context = 0
  · have hsame : t.disposeActiveContext env = t := if_pos hcontext
    rw [hsame]
    exact .refl
  · have hremoves := disposeActiveContext_removes harrays.sized hcontext
    generalize t.disposeActiveContext env = t' at hremoves
    have hsets : ∀ e, some e ∈ t'.epolls → some e ∈ t.epolls ∧ e.context ≠ env.context := by
      intro e he
      rw [hremoves.epolls] at he
      obtain ⟨x, hx, hfilter⟩ := mem_map.mp he
      obtain ⟨rfl, hstored⟩ := Option.filter_eq_some_iff.mp hfilter
      exact ⟨hx, by simpa [HostEnv.stores] using hstored⟩
    have hframes : t.Frames { t' with log := t.log } := by
      refine ⟨rfl, fun e he => Or.inr ⟨e, (hsets e he).1, rfl⟩, fun c hc => Or.inr (Or.inl ?_), ?_⟩
      · change c ∈ t'.calls at hc
        rw [hremoves.calls] at hc
        exact ⟨c, mem_of_mem_filter hc, rfl⟩
      · show t'.epolls.length = _ ∧ t'.eventfds.length = _ ∧ t'.inotifies.length = _ ∧
          t'.watches.length = _
        rw [hremoves.epolls, hremoves.eventfds, hremoves.inotifies, hremoves.watches]
        simp only [length_map, and_self]
    have hframed : Edits strict t { t' with log := t.log } := Edits.frame .refl hframes
    have hclosed := hframed.closings
      (t.inotifyClosings env.stores inotifyInstanceLimit ++
        t.eventfds.flatMap (eventfdClosings env.stores)) ?_
    · have heq : { t' with log := (t.inotifyClosings env.stores inotifyInstanceLimit ++
          t.eventfds.flatMap (eventfdClosings env.stores)).reverse ++ t.log } = t' := by
        rw [← hremoves.log]
      exact heq ▸ hclosed
    · intro ev hev
      rcases mem_append.mp hev with hwatch | heventfd
      · obtain ⟨owner, howner, hev⟩ := mem_flatMap.mp hwatch
        obtain ⟨w, hw, rfl⟩ := mem_map.mp hev
        obtain ⟨hmem, rfl⟩ := mem_ownedWatches hw
        refine ⟨w.fd, rfl, fun hs e he x hx => ?_⟩
        obtain ⟨hset, hother⟩ := hsets e he
        exact (hcareful hs hcontext e hset hother x hx).1 w hmem (mem_filter.mp howner).2
      · obtain ⟨d, hd, hev⟩ := mem_flatMap.mp heventfd
        obtain ⟨d, rfl, hstored, hfd⟩ := mem_eventfdClosings hev
        have hcontext' : d.context = env.context := of_decide_eq_true hstored
        rcases hfd with rfl | rfl
        · refine ⟨d.readFd, rfl, fun hs e he x hx => ?_⟩
          obtain ⟨hset, hother⟩ := hsets e he
          exact ((hcareful hs hcontext e hset hother x hx).2 d hd hcontext').1
        · refine ⟨d.writeFd, rfl, fun hs e he x hx => ?_⟩
          obtain ⟨hset, hother⟩ := hsets e he
          exact ((hcareful hs hcontext e hset hother x hx).2 d hd hcontext').2

/-- Every operation is made of edits. -/
theorem after_edits (env : HostEnv) (op : HostOp) (harrays : t.Arrays) (hopen : strict → t.Open)
    (hcareful : strict → t.Careful env op) : Edits strict t (t.after env op) := by
  cases op with
  | opened fd => exact Edits.opened .refl fd
  | close fd => exact Edits.close .refl env fd hcareful
  | epollCreate => exact Edits.frame .refl (epollCreate_frames t env)
  | epollCtl epfd operation fd events => exact Edits.ctl .refl env epfd operation fd events hcareful
  | epollWaitBegin epfd => exact Edits.epollWaitBegin .refl env epfd
  | epollWaitPoll callId capacity =>
    exact Edits.frame .refl (epollWaitPoll_frames t callId capacity)
  | asyncBegin => exact Edits.frame .refl (asyncBegin_frames t env)
  | asyncPoll callId => exact Edits.frame .refl (asyncPoll_frames t callId)
  | settle callId outcome => exact Edits.frame .refl (settle_frames t callId outcome)
  | eventfd pipe => exact Edits.eventfd .refl env pipe hcareful
  | inotifyInit => exact Edits.inotifyInit .refl env
  | inotifyAddWatch ifd path mask answers =>
    exact Edits.inotifyAddWatch .refl env ifd path mask answers hcareful
  | inotifyRmWatch ifd wd => exact inotifyRmWatch_edits env ifd wd harrays hopen hcareful
  | inotifyPollBegin ifd wakeFd => exact inotifyPollBegin_edits env ifd wakeFd harrays hcareful
  | inotifyPollPoll callId => exact inotifyPollPoll_edits callId
  | inotifyRead ifd buffer length answers =>
    unfold HostTables.after
    dsimp only
    split
    · exact .refl
    · exact inotifyRead_edits _ buffer length answers
  | disposeActiveContext => exact disposeActiveContext_edits env harrays hcareful

theorem arrays_reachable (h : Reachable hostStep HostTables.start t) : t.Arrays := by
  refine Runs.invariant h Arrays arrays_start fun v s w hv _ hstep => ?_
  cases hstep
  have hedits : Edits False v (v.after s.1 s.2) :=
    after_edits s.1 s.2 hv (fun h => h.elim) fun h => h.elim
  exact hedits.arrays hv

end HostTables

end TraceJvm
