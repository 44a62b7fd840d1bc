import TraceJvm.HostDisposal
import TraceJvm.HostRuns

/-! The operations on the tables are made of a few edits of the sets of descriptors, and a run keeps
what every edit keeps. -/
namespace TraceJvm

open OrderedMap ArrayMap Transition List Option SlotTable

def closedIn : List DescriptorEvent → ℤ → Bool
  | [], _ => false
  | .opened fd' :: log, fd => if fd' = fd then false else closedIn log fd
  | .closed fd' :: log, fd => if fd' = fd then true else closedIn log fd

namespace HostTables

variable {t t' u : HostTables} {env : HostEnv} {strict : Prop}

/-! ### Conditions -/

def Unheld (t : HostTables) (fd : ℤ) : Prop :=
  ∀ e, some e ∈ t.epolls → ∀ x ∈ e.entries, remoteFd x.1 ≠ remoteFd fd

def UnheldBut (t : HostTables) (index : Option ℕ) (fd : ℤ) : Prop :=
  ∀ k e, t.epolls[k]? = some (some e) → index ≠ some k →
    ∀ x ∈ e.entries, remoteFd x.1 ≠ remoteFd fd

def epollOf (t : HostTables) (env : HostEnv) (epfd : ℤ) : Option EpollInstance :=
  (t.epollIndex env epfd).bind fun index => t.epolls[index]?.join

def Takes (t : HostTables) (env : HostEnv) (epfd fd : ℤ) : Prop :=
  ∃ e, t.epollOf env epfd = some e ∧ get e.entries fd = none ∧ e.entries.length < epollEntryLimit

def Pollable (t : HostTables) (fd : ℤ) : Prop :=
  isRemoteFd fd = true ∧ closedIn t.log (remoteFd fd) = false

def inotifyOf (t : HostTables) (env : HostEnv) (ifd : ℤ) : Option (ℕ × InotifyInstance) :=
  (t.inotifyIndex env ifd).bind fun owner => t.inotifies[owner]?.join.map (owner, ·)

/-- The set would have room for the new wake-up descriptor in place of the old one. -/
def TakesWake (t : HostTables) (env : HostEnv) (i : InotifyInstance) (wakeFd : ℤ) : Prop :=
  ∃ e, t.epollOf env i.epollFd = some e ∧ get e.entries wakeFd = none ∧
    (e.entries.length < epollEntryLimit ∨ (get e.entries i.wakeFd).isSome = true)

/-- Nothing that a set holds is closed with a descriptor that is no inotify instance. -/
def CarefulPlain (t : HostTables) (env : HostEnv) (fd : ℤ) : Prop :=
  match t.epollIndex env fd, t.eventfdIndex env fd with
  | some _, _ => True
  | none, some k => ∀ e, t.eventfds[k]?.join = some e → t.Unheld e.readFd ∧ t.Unheld e.writeFd
  | none, none => env.routesFd fd = true → t.Unheld fd

def CarefulClose (t : HostTables) (env : HostEnv) (fd : ℤ) : Prop :=
  match t.inotifyIndex env fd with
  | none => t.CarefulPlain env fd
  | some owner =>
    ∀ i, t.inotifies[owner]?.join = some i → ∀ w ∈ t.ownedWatches owner,
      t.UnheldBut (t.epollIndex env i.epollFd) w.fd

/-- An operation adds descriptors of the host only that are open, and closes none that is in a set
which stays. -/
def Careful (t : HostTables) (env : HostEnv) : HostOp → Prop
  | .epollCtl epfd operation fd _ =>
    operation = 1 → env.routesFd fd = true → t.Takes env epfd fd → t.Pollable fd
  | .close fd => t.CarefulClose env fd
  | .eventfd pipe =>
    ∀ readFd writeFd, pipe = some (readFd, writeFd) → none ∉ t.eventfds →
      t.Unheld (taggedFdBase + readFd) ∧ t.Unheld (taggedFdBase + writeFd)
  | .inotifyAddWatch ifd _ _ answers =>
    ∀ owner i fd, t.inotifyOf env ifd = some (owner, i) → answers.watch = some fd →
      t.Takes env i.epollFd (taggedFdBase + fd) ∨ t.Unheld (taggedFdBase + fd)
  | .inotifyRmWatch ifd wd =>
    ∀ owner i, t.inotifyOf env ifd = some (owner, i) → t.watchIndex owner wd ≠ none →
      t.UnheldBut (t.epollIndex env i.epollFd) wd
  | .inotifyPollBegin ifd wakeFd =>
    ∀ owner i, t.inotifyOf env ifd = some (owner, i) → env.routesFd wakeFd = true →
      i.pendingCallId = 0 → i.wakeFd ≠ wakeFd → t.TakesWake env i wakeFd → t.Pollable wakeFd
  | .disposeActiveContext =>
    env.context ≠ 0 → ∀ e, some e ∈ t.epolls → e.context ≠ env.context → ∀ x ∈ e.entries,
      (∀ w, some w ∈ t.watches → t.ownedInotify env.stores w.owner = true →
        remoteFd x.1 ≠ remoteFd w.fd) ∧
      ∀ d, some d ∈ t.eventfds → d.context = env.context →
        remoteFd x.1 ≠ remoteFd d.readFd ∧ remoteFd x.1 ≠ remoteFd d.writeFd
  | _ => True

/-! ### Edits -/

structure Frames (t t' : HostTables) : Prop where
  log : t'.log = t.log
  sets : ∀ e', some e' ∈ t'.epolls →
    e'.entries = [] ∨ ∃ e, some e ∈ t.epolls ∧ e'.entries = e.entries
  calls : ∀ c ∈ t'.calls, c.2.epollEntries = [] ∨
    (∃ c' ∈ t.calls, c.2.epollEntries = c'.2.epollEntries) ∨
    ∃ e, some e ∈ t.epolls ∧ c.2.epollEntries.length = e.entries.length
  sizes : t'.epolls.length = t.epolls.length ∧ t'.eventfds.length = t.eventfds.length ∧
    t'.inotifies.length = t.inotifies.length ∧ t'.watches.length = t.watches.length

inductive Edit where
  | frame (t' : HostTables)
  | opened (fd : ℤ)
  | closed (fd : ℤ)
  | ctl (env : HostEnv) (epfd operation fd : ℤ) (events : Int32)

def edit (t : HostTables) : Edit → Option HostTables
  | .frame t' => some t'
  | .opened fd => some (t.openRemote fd)
  | .closed fd => some (t.closeRemote fd)
  | .ctl env epfd operation fd events => some (t.epollCtl env epfd operation fd events).1

/-- The edits that an operation is made of. If `strict` holds the operation is careful. -/
def Allowed (strict : Prop) (t : HostTables) : Edit → Prop
  | .frame t' => t.Frames t'
  | .opened _ => True
  | .closed fd => strict → t.Unheld fd
  | .ctl env epfd operation fd _ =>
    strict → operation = 1 → env.routesFd fd = true → t.Takes env epfd fd → t.Pollable fd

abbrev Edits (strict : Prop) : HostTables → HostTables → Prop := Runs edit (Allowed strict)

theorem Edits.frame (h : Edits strict t u) (hframes : u.Frames t') : Edits strict t t' :=
  h.tail (a := .frame t') hframes rfl

theorem Edits.opened (h : Edits strict t u) (fd : ℤ) : Edits strict t (u.openRemote fd) :=
  h.tail (a := .opened fd) trivial rfl

theorem Edits.closed (h : Edits strict t u) (fd : ℤ) (hfd : strict → u.Unheld fd) :
    Edits strict t (u.closeRemote fd) :=
  h.tail (a := .closed fd) hfd rfl

theorem Edits.ctl (h : Edits strict t u) (env : HostEnv) (epfd operation fd : ℤ) (events : Int32)
    (hfd : strict → operation = 1 → env.routesFd fd = true → u.Takes env epfd fd →
      u.Pollable fd) : Edits strict t (u.epollCtl env epfd operation fd events).1 :=
  h.tail (a := .ctl env epfd operation fd events) hfd rfl

theorem Frames.refl (t : HostTables) : t.Frames t :=
  ⟨rfl, fun e he => Or.inr ⟨e, he, rfl⟩, fun c hc => Or.inr (Or.inl ⟨c, hc, rfl⟩),
    rfl, rfl, rfl, rfl⟩

theorem Frames.of_tables (eventfds : List (Option EventDescriptor))
    (inotifies : List (Option InotifyInstance)) (watches : List (Option InotifyWatch))
    (heventfds : eventfds.length = t.eventfds.length)
    (hinotifies : inotifies.length = t.inotifies.length)
    (hwatches : watches.length = t.watches.length) :
    t.Frames { t with eventfds, inotifies, watches } :=
  ⟨rfl, fun e he => Or.inr ⟨e, he, rfl⟩, fun c hc => Or.inr (Or.inl ⟨c, hc, rfl⟩),
    rfl, heventfds, hinotifies, hwatches⟩

theorem Frames.set_epoll (t : HostTables) (i : ℕ) (x : Option EpollInstance)
    (hx : ∀ e', x = some e' → e'.entries = [] ∨
      ∃ e, some e ∈ t.epolls ∧ e'.entries = e.entries) :
    t.Frames { t with epolls := t.epolls.set i x } := by
  refine ⟨rfl, fun e' he' => ?_, fun c hc => Or.inr (Or.inl ⟨c, hc, rfl⟩),
    length_set, rfl, rfl, rfl⟩
  rcases mem_or_eq_of_mem_set he' with hmem | heq
  · exact Or.inr ⟨e', hmem, rfl⟩
  · exact hx e' heq.symm

theorem Frames.of_calls (t : HostTables) (calls : List (ℕ × AsyncCall)) (nextCallId : ℕ)
    (hcalls : ∀ c ∈ calls, c.2.epollEntries = [] ∨
      (∃ c' ∈ t.calls, c.2.epollEntries = c'.2.epollEntries) ∨
      ∃ e, some e ∈ t.epolls ∧ c.2.epollEntries.length = e.entries.length) :
    t.Frames { t with calls, nextCallId } :=
  ⟨rfl, fun e he => Or.inr ⟨e, he, rfl⟩, hcalls, rfl, rfl, rfl, rfl⟩

/-! ### What the functions edit -/

variable {e : EpollInstance}

theorem epollOf_mem {epfd : ℤ} (h : t.epollOf env epfd = some e) : some e ∈ t.epolls := by
  obtain ⟨index, -, hjoin⟩ := bind_eq_some_iff.mp h
  exact mem_of_getElem? (join_eq_some_iff.mp hjoin)

theorem epollCreate_frames (t : HostTables) (env : HostEnv) : t.Frames (t.epollCreate env).1 := by
  unfold epollCreate
  cases hfill : fill t.epolls ⟨env.context, 0, []⟩ with
  | none => exact .refl t
  | some filled =>
    obtain ⟨epolls, i⟩ := filled
    obtain ⟨-, rfl⟩ := fill_eq hfill
    refine .set_epoll t i _ fun e' he' => Or.inl ?_
    cases he'
    rfl

theorem mem_of_mem_set {α : Type} {m : List (ℕ × α)} {k : ℕ} {v : α} {p : ℕ × α}
    (h : p ∈ OrderedMap.set m k v) : p = (k, v) ∨ p ∈ m := by
  induction m with
  | nil => exact Or.inl (mem_singleton.mp h)
  | cons q m ih =>
    unfold OrderedMap.set at h
    split_ifs at h with hq
    · exact (mem_cons.mp h).imp_right (mem_cons_of_mem _)
    · rcases mem_cons.mp h with rfl | hmem
      · exact Or.inr mem_cons_self
      · exact (ih hmem).imp_right (mem_cons_of_mem _)

theorem beginCall_frames (t : HostTables) (env : HostEnv) (polled : List PollEntry)
    (hpolled : polled = [] ∨ ∃ e, some e ∈ t.epolls ∧ polled.length = e.entries.length) :
    t.Frames (t.beginCall env polled).1 := by
  unfold beginCall
  cases searchCallId t.calls (t.calls.length + 1) t.nextCallId with
  | none => exact .refl t
  | some id =>
    refine .of_calls t _ id fun c hc => ?_
    rcases mem_of_mem_set hc with rfl | hmem
    · exact hpolled.imp_right Or.inr
    · exact Or.inr (Or.inl ⟨c, hmem, rfl⟩)

theorem asyncBegin_frames (t : HostTables) (env : HostEnv) : t.Frames (t.asyncBegin env).1 := by
  unfold asyncBegin
  split_ifs
  · exact beginCall_frames t env [] (Or.inl rfl)
  · exact .refl t

theorem settle_frames (t : HostTables) (callId : ℕ) (outcome : Except HostError JsValue) :
    t.Frames (t.settle callId outcome) := by
  unfold settle
  split
  · rename_i contextId polled hcall
    refine .of_calls t _ t.nextCallId fun c hc => Or.inr (Or.inl ?_)
    rcases mem_of_mem_set hc with rfl | hmem
    · exact ⟨_, mem_of_get hcall, rfl⟩
    · exact ⟨c, hmem, rfl⟩
  · exact .refl t

theorem delete_frames (t : HostTables) (callId : ℕ) :
    t.Frames { t with calls := delete t.calls callId } :=
  .of_calls t _ t.nextCallId fun c hc => Or.inr (Or.inl ⟨c, mem_of_mem_filter hc, rfl⟩)

theorem asyncPoll_frames (t : HostTables) (callId : ℕ) : t.Frames (t.asyncPoll callId) := by
  unfold asyncPoll
  split
  · exact delete_frames t callId
  · exact .refl t

theorem length_mapM_pollEntry {es : List (ℤ × Int32)} {polled : List PollEntry}
    (h : es.mapM pollEntry = some polled) : polled.length = es.length := by
  induction es generalizing polled with
  | nil =>
    cases h
    rfl
  | cons e es ih =>
    rw [mapM_cons] at h
    obtain ⟨p, -, hrest⟩ := bind_eq_some_iff.mp h
    obtain ⟨ps, hps, heq⟩ := bind_eq_some_iff.mp hrest
    cases heq
    rw [length_cons, length_cons, ih hps]

theorem waitBeginJs_frames (t : HostTables) (env : HostEnv)
    (he : some e ∈ t.epolls) : t.Frames (t.waitBeginJs env e.entries).1 := by
  unfold waitBeginJs
  split_ifs
  · cases hpolled : e.entries.mapM pollEntry with
    | none => exact .refl t
    | some polled =>
      refine beginCall_frames t env polled (Or.inr ⟨e, he, ?_⟩)
      exact length_mapM_pollEntry hpolled
  · exact .refl t

theorem Edits.setEpoll (h : Edits strict t u) {i : ℕ} (he : some e ∈ u.epolls)
    (pendingCallId : ℕ) : Edits strict t (u.setEpoll i { e with pendingCallId }) :=
  h.frame (.set_epoll u i _ fun e' he' => Or.inr ⟨e, he, by rw [← some.inj he']⟩)

theorem waitBeginJs_epolls (t : HostTables) (env : HostEnv) (entries : List (ℤ × Int32)) :
    (t.waitBeginJs env entries).1.epolls = t.epolls := by
  unfold waitBeginJs beginCall
  split_ifs
  · split
    · rfl
    · split
      · rfl
      · rfl
  · rfl

theorem Edits.epollWaitBegin (h : Edits strict t u) (env : HostEnv) (epfd : ℤ) :
    Edits strict t (u.epollWaitBegin env epfd).1 := by
  unfold HostTables.epollWaitBegin
  split
  · exact h
  · rename_i i hindex
    split
    · exact h
    · rename_i e he
      have hmem : some e ∈ u.epolls := mem_of_getElem? (join_eq_some_iff.mp he)
      split_ifs
      · exact h
      · have hbegin := h.frame (waitBeginJs_frames u env hmem)
        have hepolls := waitBeginJs_epolls u env e.entries
        generalize u.waitBeginJs env e.entries = r at hbegin hepolls
        obtain ⟨u', result⟩ := r
        cases result with
        | error err => exact hbegin
        | ok id =>
          refine hbegin.setEpoll ?_ id
          rw [hepolls]
          exact hmem

theorem mem_modify {α : Type} {ts : List (Option α)} {i : ℕ} {f : α → α} {y : α}
    (h : some y ∈ ts.modify i (Option.map f)) : some y ∈ ts ∨ ∃ x, some x ∈ ts ∧ y = f x := by
  obtain ⟨k, hk⟩ := mem_iff_getElem?.mp h
  rw [getElem?_modify] at hk
  split_ifs at hk
  · obtain ⟨x, hx, hy⟩ := map_eq_some_iff.mp hk
    obtain ⟨z, rfl, rfl⟩ := map_eq_some_iff.mp hy
    exact Or.inr ⟨z, mem_of_getElem? hx, rfl⟩
  · exact Or.inl (mem_of_getElem? (by simpa using hk))

theorem endCall_frames (t : HostTables) (callId : ℕ) : t.Frames (t.endCall callId) := by
  have hcalls := (delete_frames t callId).calls
  unfold endCall
  split
  · exact ⟨rfl, fun e he => Or.inr ⟨e, he, rfl⟩, hcalls, rfl, rfl, rfl, rfl⟩
  · refine ⟨rfl, fun e' he' => Or.inr ?_, hcalls, length_modify .., rfl, rfl, rfl⟩
    rcases mem_modify he' with hmem | ⟨e, he, rfl⟩
    · exact ⟨e', hmem, rfl⟩
    · exact ⟨e, he, rfl⟩

theorem epollWaitPoll_frames (t : HostTables) (callId capacity : ℕ) :
    t.Frames (t.epollWaitPoll callId capacity).1 := by
  unfold epollWaitPoll
  split
  · exact endCall_frames t callId
  · split
    · exact .refl t
    · split
      iterate 3 exact endCall_frames t callId

theorem length_freed (t : HostTables) (index : Option ℕ) :
    (t.freed index).length = t.epolls.length := by
  cases index with
  | none => rfl
  | some j => exact length_set

theorem mem_freed {index : Option ℕ} (h : some e ∈ t.freed index) :
    ∃ k, t.epolls[k]? = some (some e) ∧ index ≠ some k := by
  obtain ⟨k, hk⟩ := mem_iff_getElem?.mp h
  cases index with
  | none => exact ⟨k, hk, by simp⟩
  | some j =>
    change (t.epolls.set j none)[k]? = _ at hk
    by_cases hjk : j = k
    · subst hjk
      rcases Nat.lt_or_ge j t.epolls.length with hlt | hge
      · rw [getElem?_set_self hlt] at hk
        cases hk
      · rw [set_eq_of_length_le hge, getElem?_eq_none hge] at hk
        cases hk
    · rw [getElem?_set_ne hjk] at hk
      exact ⟨k, hk, fun heq => hjk (some.inj heq)⟩

theorem freed_frames (t : HostTables) (index : Option ℕ) :
    t.Frames { t with epolls := t.freed index } := by
  refine ⟨rfl, fun e he => Or.inr ?_, fun c hc => Or.inr (Or.inl ⟨c, hc, rfl⟩),
    length_freed t index, rfl, rfl, rfl⟩
  obtain ⟨k, hk, -⟩ := mem_freed he
  exact ⟨e, mem_of_getElem? hk, rfl⟩

theorem Edits.closings (h : Edits strict t u) (events : List DescriptorEvent)
    (hevents : ∀ ev ∈ events, ∃ fd, ev = .closed (remoteFd fd) ∧ (strict → u.Unheld fd)) :
    Edits strict t { u with log := events.reverse ++ u.log } := by
  induction events generalizing u with
  | nil => exact h
  | cons ev events ih =>
    obtain ⟨fd, rfl, hfd⟩ := hevents ev mem_cons_self
    have hrest := ih (h.closed fd hfd) fun ev' hev' => hevents ev' (mem_cons_of_mem _ hev')
    have hlog : (DescriptorEvent.closed (remoteFd fd) :: events).reverse ++ u.log =
        events.reverse ++ (u.closeRemote fd).log := by
      rw [reverse_cons, append_assoc]
      rfl
    rw [hlog]
    exact hrest

theorem Edits.eventfd (h : Edits strict t u) (env : HostEnv) (pipe : Option (ℕ × ℕ))
    (hcareful : strict → u.Careful env (.eventfd pipe)) :
    Edits strict t (u.eventfd env pipe).1 := by
  unfold HostTables.eventfd
  split
  · exact h
  · rename_i readFd writeFd
    split_ifs with hfds
    · have hopened := (h.opened (taggedFdBase + readFd)).opened (taggedFdBase + writeFd)
      dsimp only
      cases hfill : fill u.eventfds ⟨env.context, taggedFdBase + readFd,
        taggedFdBase + writeFd, isRemoteFd_tagged hfds.1, isRemoteFd_tagged hfds.2⟩ with
      | none =>
        have hfull : none ∉ u.eventfds := by
          intro hmem
          have hfree : 0 < free u.eventfds := countP_pos_iff.mpr ⟨none, hmem, rfl⟩
          obtain ⟨eventfds, i, hsome⟩ := fill_of_free hfree _
          rw [hfill] at hsome
          cases hsome
        refine (hopened.closed _ fun hs => ?_).closed _ fun hs => ?_
        · exact (hcareful hs readFd writeFd rfl hfull).1
        · exact (hcareful hs readFd writeFd rfl hfull).2
      | some filled =>
        obtain ⟨eventfds, i⟩ := filled
        obtain ⟨-, rfl⟩ := fill_eq hfill
        exact hopened.frame (.of_tables _ _ _ length_set rfl rfl)
    · exact h

theorem Edits.closePlain (h : Edits strict t u) (env : HostEnv) (fd : ℤ)
    (hcareful : strict → u.CarefulPlain env fd) :
    Edits strict t (u.closePlain env fd).1 := by
  unfold CarefulPlain at hcareful
  unfold HostTables.closePlain
  cases hepoll : u.epollIndex env fd with
  | some i => exact h.frame (.set_epoll u i none fun e' he' => by cases he')
  | none =>
    rw [hepoll] at hcareful
    dsimp only
    cases heventfd : u.eventfdIndex env fd with
    | some k =>
      rw [heventfd] at hcareful
      dsimp only
      cases hjoin : u.eventfds[k]?.join with
      | none => exact h
      | some e =>
        have hread := h.closed e.readFd fun hs => (hcareful hs e hjoin).1
        have hwrite := hread.closed e.writeFd fun hs => (hcareful hs e hjoin).2
        exact hwrite.frame (.of_tables _ _ _ length_set rfl rfl)
    | none =>
      rw [heventfd] at hcareful
      dsimp only
      split_ifs with hroutes
      · exact h.closed fd fun hs => hcareful hs hroutes
      · exact h

theorem Edits.close (h : Edits strict t u) (env : HostEnv) (fd : ℤ)
    (hcareful : strict → u.CarefulClose env fd) : Edits strict t (u.close env fd).1 := by
  unfold CarefulClose at hcareful
  unfold HostTables.close
  cases hinotify : u.inotifyIndex env fd with
  | none =>
    rw [hinotify] at hcareful
    exact h.closePlain env fd hcareful
  | some owner =>
    rw [hinotify] at hcareful
    dsimp only at hcareful ⊢
    cases hjoin : u.inotifies[owner]?.join with
    | none => exact h
    | some i =>
      dsimp only
      rw [closePlain_inner_frees (u.closeWatches owner) env i.inner]
      have hframes := (h.frame (freed_frames u (u.epollIndex env i.epollFd))).frame
        (.of_tables u.eventfds (u.inotifies.set owner none) (u.closeWatches owner).watches rfl
          length_set (length_map _))
      have hclosed := hframes.closings (u.watchClosings owner) ?_
      · unfold watchClosings at hclosed
        rw [← map_reverse] at hclosed
        exact hclosed
      · intro ev hev
        obtain ⟨w, hw, rfl⟩ := mem_map.mp hev
        refine ⟨w.fd, rfl, fun hs e he => ?_⟩
        obtain ⟨k, hk, hne⟩ := mem_freed he
        exact hcareful hs i hjoin w hw k e hk hne

theorem Edits.inotifyInit (h : Edits strict t u) (env : HostEnv) :
    Edits strict t (u.inotifyInit env).1 := by
  unfold HostTables.inotifyInit
  cases hepolls : fill u.epolls ⟨env.context, 0, []⟩ with
  | none => exact h
  | some filled =>
    obtain ⟨epolls, i⟩ := filled
    obtain ⟨-, rfl⟩ := fill_eq hepolls
    have hcreated := h.frame (.set_epoll u i (some ⟨env.context, 0, []⟩) fun e' he' => by
      cases he'
      exact Or.inl rfl)
    dsimp only
    split_ifs with hi
    · split
      · rw [closePlain_inner_frees _ env (by unfold epollInstanceLimit at hi ⊢; omega)]
        exact hcreated.frame (freed_frames _ _)
      · rename_i inotifies j hinotifies
        obtain ⟨-, rfl⟩ := fill_eq hinotifies
        exact hcreated.frame (.of_tables _ _ _ rfl length_set rfl)
    · exact h

/-- What `epoll_ctl` does to the entries when it succeeds. -/
theorem ctlEntries_ok {es es' : List (ℤ × Int32)} {operation fd : ℤ} {events : Int32}
    (h : ctlEntries es operation fd events = .ok es') :
    (operation = 1 ∧ get es fd = none ∧ es.length < epollEntryLimit ∧ es' = es ++ [(fd, events)]) ∨
    (operation = 2 ∧ ∃ i v, es[i]? = some (fd, v) ∧ es' = swapRemove es i) ∨
    (operation = 3 ∧ ∃ i v, es[i]? = some (fd, v) ∧ es' = es.set i (fd, events)) := by
  unfold ctlEntries at h
  split at h
  · cases h
  · rename_i hindex
    split_ifs at h with hlimit
    cases h
    exact Or.inl ⟨rfl, indexOf_eq_none.mp hindex, by omega, rfl⟩
  · cases h
  · rename_i i hindex
    cases h
    obtain ⟨v, hv⟩ := indexOf_eq_some hindex
    exact Or.inr (Or.inl ⟨rfl, i, v, hv, rfl⟩)
  · cases h
  · rename_i i hindex
    cases h
    obtain ⟨v, hv⟩ := indexOf_eq_some hindex
    exact Or.inr (Or.inr ⟨rfl, i, v, hv, rfl⟩)
  · cases h

/-- `epoll_ctl` fails and changes nothing, or it changes the entries of one set. -/
theorem epollCtl_cases (t : HostTables) (env : HostEnv) (epfd operation fd : ℤ) (events : Int32) :
    (∃ err, t.epollCtl env epfd operation fd events = (t, .error err)) ∨
    ∃ i e entries, t.epollIndex env epfd = some i ∧ t.epolls[i]? = some (some e) ∧
      env.routesFd fd = true ∧ ctlEntries e.entries operation fd events = .ok entries ∧
      t.epollCtl env epfd operation fd events = (t.setEpoll i { e with entries }, .ok ()) := by
  unfold epollCtl
  cases hindex : t.epollIndex env epfd with
  | none => exact Or.inl ⟨_, rfl⟩
  | some i =>
    dsimp only
    cases he : t.epolls[i]?.join with
    | none => exact Or.inl ⟨_, rfl⟩
    | some e =>
      dsimp only
      split_ifs with hroutes
      · cases hentries : ctlEntries e.entries operation fd events with
        | error err => exact Or.inl ⟨err, rfl⟩
        | ok entries =>
          exact Or.inr ⟨i, e, entries, rfl, join_eq_some_iff.mp he, hroutes, hentries, rfl⟩
      · exact Or.inl ⟨_, rfl⟩

theorem epollCtl_takes {epfd fd : ℤ} (h : t.Takes env epfd fd) (hroutes : env.routesFd fd = true)
    (events : Int32) : (t.epollCtl env epfd 1 fd events).2 = .ok () := by
  obtain ⟨e, he, hfree, hroom⟩ := h
  obtain ⟨i, hindex, hjoin⟩ := bind_eq_some_iff.mp he
  have hentries : ctlEntries e.entries 1 fd events = .ok (e.entries ++ [(fd, events)]) := by
    unfold ctlEntries
    rw [indexOf_eq_none.mpr hfree]
    exact if_neg (Nat.not_le.mpr hroom)
  unfold epollCtl
  rw [hindex]
  dsimp only
  rw [hjoin]
  dsimp only
  rw [if_pos hroutes, hentries]

theorem routesFd_tagged (env : HostEnv) {fd : ℕ} (h : fd < 0x40000000) :
    env.routesFd (taggedFdBase + fd) = true := by
  unfold HostEnv.routesFd
  rw [isRemoteFd_tagged h, Bool.true_or]

theorem pollable_opened {fd : ℤ} (h : isRemoteFd fd = true) : (t.openRemote fd).Pollable fd :=
  ⟨h, if_pos rfl⟩

theorem inotifyOf_some {ifd : ℤ} {owner : ℕ} {i : InotifyInstance}
    (hindex : t.inotifyIndex env ifd = some owner) (hi : t.inotifies[owner]?.join = some i) :
    t.inotifyOf env ifd = some (owner, i) := by
  unfold inotifyOf
  rw [hindex, bind_some, hi]
  rfl

/-- The watch of a descriptor that its set does not take is closed again. -/
theorem Edits.inotifyAddWatch (h : Edits strict t u) (env : HostEnv) (ifd : ℤ)
    (path : Option (List UInt8)) (mask : Int32) (a : WatchAnswers)
    (hcareful : strict → u.Careful env (.inotifyAddWatch ifd path mask a)) :
    Edits strict t (u.inotifyAddWatch env ifd path mask a).1 := by
  unfold HostTables.inotifyAddWatch
  split
  · exact h
  · exact h
  · rename_i owner path hindex
    split
    · exact h
    · exact h
    · rename_i i resolved hi hresolved
      split
      · exact h.frame (.of_tables _ _ _ rfl rfl (length_modify ..))
      · split
        · exact h
        · split
          · exact h
          · exact h
          · rename_i fd hstrdup hwatch
            split_ifs with hfd
            · have hopened := h.opened (taggedFdBase + fd)
              have hroutes := routesFd_tagged env hfd
              have hctl := hopened.ctl env i.epollFd 1 (taggedFdBase + fd) 0x001 fun _ _ _ _ =>
                pollable_opened (isRemoteFd_tagged hfd)
              rcases epollCtl_cases (u.openRemote (taggedFdBase + fd)) env i.epollFd 1
                (taggedFdBase + fd) 0x001 with ⟨err, herr⟩ | ⟨_, _, _, -, -, -, -, hok⟩
              · rw [herr]
                refine hopened.closed _ fun hs => ?_
                have hinotify := inotifyOf_some hindex hi
                rcases hcareful hs owner i fd hinotify hwatch with htakes | hunheld
                · have hsome := epollCtl_takes (t := u.openRemote (taggedFdBase + fd)) htakes
                    hroutes 0x001
                  rw [herr] at hsome
                  cases hsome
                · exact hunheld
              · rw [hok] at hctl ⊢
                exact hctl.frame (.of_tables _ _ _ rfl rfl length_set)
            · exact h

end HostTables

end TraceJvm
