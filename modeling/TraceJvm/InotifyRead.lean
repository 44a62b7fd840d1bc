import TraceJvm.HostRuns

/-! Where the frames go that reads of inotify instances take from the host. -/
namespace TraceJvm

open List

/-! ### Records -/

theorem length_word (n : ℕ) : (word n).length = 4 := rfl

theorem InotifyRecord.length_bytes (r : InotifyRecord) : r.bytes.length = r.size := by
  have hpadded : r.name.length ≤ r.paddedNameLength := by
    unfold InotifyRecord.paddedNameLength
    split_ifs with h
    · omega
    · omega
  unfold InotifyRecord.bytes InotifyRecord.size
  simp only [length_append, length_word, length_replicate]
  omega

variable {r : InotifyRecord}

theorem InotifyRecord.place_some {capacity : ℕ} {bytes : List UInt8}
    (h : r.place capacity = some bytes) : bytes = r.bytes ∧ r.size ≤ capacity := by
  unfold InotifyRecord.place at h
  split_ifs at h with hroom
  exact ⟨(Option.some.inj h).symm, by omega⟩

theorem InotifyRecord.place_none {capacity : ℕ}
    (h : r.place capacity = none) : capacity < r.size := by
  unfold InotifyRecord.place at h
  split_ifs at h with hroom
  exact hroom

/-! ### Frames -/

inductive Tells (w : InotifyWatch) (stat : Option Errno) :
    ℕ → List UInt8 → InotifyRecord → Prop where
  | modified {path : List UInt8} (hpath : path ≠ w.path) :
      Tells w stat 1 path ⟨w.fd, inModify, lastSegment path⟩
  | created {type : ℕ} {path : List UInt8} (hpath : path ≠ w.path)
      (htype : type = 4 ∨ type = 2 ∧ stat = none) :
      Tells w stat type path ⟨w.fd, inCreate, lastSegment path⟩
  | deleted {type : ℕ} {path : List UInt8} (hpath : path ≠ w.path)
      (htype : type = 5 ∨ type = 2 ∧ stat = some .ENOENT) :
      Tells w stat type path ⟨w.fd, inDelete, lastSegment path⟩
  | gone {type : ℕ} (htype : type = 5 ∨ type = 2 ∧ stat = some .ENOENT) :
      Tells w stat type w.path ⟨w.fd, inIgnored, []⟩
  | lost {path : List UInt8} : Tells w stat 3 path overflowRecord
  | unclear {path : List UInt8} {err : Errno} (hstat : stat = some err) (hfound : err ≠ .ENOENT) :
      Tells w stat 2 path overflowRecord

inductive Fate where
  | returned | suppressed | overflowed | ownPath | unplaced

inductive Fated (w : InotifyWatch) (stat : Option Errno) (type : ℕ) (path : List UInt8) :
    Fate → List InotifyRecord → Prop where
  | returned {r : InotifyRecord} (htells : Tells w stat type path r) :
      Fated w stat type path .returned [r]
  | suppressed {r : InotifyRecord} (htells : Tells w stat type path r) (hpath : path ≠ w.path)
      (hfd : r.wd = w.fd) (hmask : w.mask &&& r.mask.toInt32 = 0) :
      Fated w stat type path .suppressed []
  | overflowed : Fated w stat type path .overflowed [overflowRecord]
  /-- It is about the watched path itself and does not say that this is gone. -/
  | ownPath (hpath : path = w.path) (htype : type = 1 ∨ type = 4 ∨ type = 2 ∧ stat = none) :
      Fated w stat type path .ownPath []

/-- The frames of a read after `written` bytes, with the records that follow. -/
inductive Accounted (watches : List (Option InotifyWatch)) (a : FrameAnswers) (length : ℕ)
    (allowed : Fate → Prop) : ℕ → List ℕ → List InotifyRecord → Prop where
  | nil {written : ℕ} : Accounted watches a length allowed written [] []
  | frame {written index type : ℕ} {w : InotifyWatch} {path : List UInt8} {fate : Fate}
      {slots : List ℕ} {emitted records : List InotifyRecord}
      (hwatch : watches[index]? = some (some w)) (hframe : a.frame index = some (type, path))
      (hfate : Fated w (a.stat index) type path fate emitted) (hallowed : allowed fate)
      (hrest : Accounted watches a length allowed (written + (emitted.map InotifyRecord.size).sum)
        slots records) :
      Accounted watches a length allowed written (index :: slots) (emitted ++ records)
  /-- Nothing well formed has been read, and the read ends. -/
  | unread {written index : ℕ} (hframe : a.frame index = none) :
      Accounted watches a length allowed written [index] []
  /-- The record does not fit, and the read ends. -/
  | unplaced {written index type : ℕ} {w : InotifyWatch} {path : List UInt8} {r : InotifyRecord}
      (hwatch : watches[index]? = some (some w)) (hframe : a.frame index = some (type, path))
      (htells : Tells w (a.stat index) type path r) (hroom : length < written + r.size)
      (hallowed : allowed .unplaced) : Accounted watches a length allowed written [index] []

variable {path : List UInt8}

variable {type : ℕ} {w : InotifyWatch}

theorem childEvent_tells (stat : Option Errno)
    (htype : 1 ≤ type ∧ type ≤ 5) (hlost : type ≠ 3) (hpath : path ≠ w.path) :
    Tells w stat type path (childEvent w stat type path) ∧
      ((childEvent w stat type path).wd = w.fd ∨ childEvent w stat type path = overflowRecord) := by
  unfold childEvent
  split_ifs with hone hfour hfive
  · exact ⟨hone ▸ .modified hpath, Or.inl rfl⟩
  · exact ⟨.created hpath (Or.inl hfour), Or.inl rfl⟩
  · exact ⟨.deleted hpath (Or.inl hfive), Or.inl rfl⟩
  · have htwo : type = 2 := by omega
    split
    · exact ⟨.created hpath (Or.inr ⟨htwo, rfl⟩), Or.inl rfl⟩
    · exact ⟨.deleted hpath (Or.inr ⟨htwo, rfl⟩), Or.inl rfl⟩
    · rename_i err hne
      exact ⟨htwo ▸ .unclear rfl fun heq => hne heq, Or.inr rfl⟩

variable {stat : Option Errno}

theorem watchEvent_some (htype : 1 ≤ type ∧ type ≤ 5) (h : watchEvent w stat type path = some r) :
    Tells w stat type path r := by
  unfold watchEvent at h
  split_ifs at h with hlost hown hgone hambiguous
  · cases h
    exact hlost ▸ .lost
  · cases h
    exact hown ▸ .gone (Or.inl hgone)
  · have htwo : type = 2 := by omega
    split at h
    · cases h
    · cases h
      exact hown ▸ .gone (Or.inr ⟨htwo, rfl⟩)
    · rename_i err hne
      cases h
      exact htwo ▸ .unclear rfl fun heq => hne heq
  · dsimp only at h
    split_ifs at h with hmask
    cases h
    exact (childEvent_tells stat htype hlost hown).1

theorem watchEvent_none (htype : 1 ≤ type ∧ type ≤ 5) (h : watchEvent w stat type path = none) :
    ∃ fate, Fated w stat type path fate [] := by
  unfold watchEvent at h
  split_ifs at h with hlost hown hgone hambiguous
  · have hother : type = 1 ∨ type = 4 := by omega
    exact ⟨_, .ownPath hown (by omega)⟩
  · have htwo : type = 2 := by omega
    split at h
    · exact ⟨_, .ownPath hown (Or.inr (Or.inr ⟨htwo, rfl⟩))⟩
    · cases h
    · cases h
  · dsimp only at h
    split_ifs at h with hmask
    obtain ⟨htells, hfd | hoverflow⟩ := childEvent_tells stat htype hlost hown
    · exact ⟨_, .suppressed htells hown hfd hmask.2⟩
    · rw [hoverflow] at hmask
      exact absurd hmask.1 (by decide)

theorem FrameAnswers.frame_type {a : FrameAnswers} {index : ℕ}
    (h : a.frame index = some (type, path)) : 1 ≤ type ∧ type ≤ 5 := by
  unfold FrameAnswers.frame at h
  split at h
  · cases h
  · unfold watchFrame at h
    dsimp only at h
    split_ifs at h with hheader hbody
    cases h
    omega

/-! ### Reads -/

/-- The frames of a read are accounted for by the records that it returns after the `output`, and
these end within the buffer. -/
def InotifyOutcome.AccountsFor (o : InotifyOutcome) (watches : List (Option InotifyWatch))
    (a : FrameAnswers) (length : ℕ) (allowed : Fate → Prop) (output : List UInt8) : Prop :=
  ∃ records err, Accounted watches a length allowed output.length o.slots records ∧
    o.result = returned (output ++ records.flatMap InotifyRecord.bytes) err ∧
    (output ++ records.flatMap InotifyRecord.bytes).length ≤ length

section Read

variable {watches : List (Option InotifyWatch)} {a : FrameAnswers} {owner length : ℕ}
  {allowed : Fate → Prop} {output : List UInt8}

theorem length_flatMap_bytes (records : List InotifyRecord) :
    (records.flatMap InotifyRecord.bytes).length = (records.map InotifyRecord.size).sum := by
  rw [length_flatMap]
  congr 1
  apply map_congr_left
  intro r _
  exact r.length_bytes

theorem accountsFor_end {slots : List ℕ} (err : Errno) (houtput : output.length ≤ length)
    (h : Accounted watches a length allowed output.length slots []) :
    InotifyOutcome.AccountsFor ⟨slots, returned output err⟩ watches a length allowed output := by
  refine ⟨[], err, h, ?_, ?_⟩
  · rw [flatMap_nil, append_nil]
  · rwa [flatMap_nil, append_nil]

/-- A frame before the rest of a read. -/
theorem accountsFor_frame {o : InotifyOutcome} {index type : ℕ} {w : InotifyWatch}
    {path : List UInt8} {fate : Fate} {emitted : List InotifyRecord}
    (hwatch : watches[index]? = some (some w)) (hframe : a.frame index = some (type, path))
    (hfate : Fated w (a.stat index) type path fate emitted) (hallowed : allowed fate)
    (ho : o.AccountsFor watches a length allowed
      (output ++ emitted.flatMap InotifyRecord.bytes)) :
    InotifyOutcome.AccountsFor { o with slots := index :: o.slots } watches a length allowed
      output := by
  obtain ⟨records, err, hslots, hresult, hlength⟩ := ho
  rw [length_append, length_flatMap_bytes] at hslots
  have hbytes : output ++ (emitted ++ records).flatMap InotifyRecord.bytes =
      output ++ emitted.flatMap InotifyRecord.bytes ++ records.flatMap InotifyRecord.bytes := by
    rw [flatMap_append, append_assoc]
  refine ⟨emitted ++ records, err, .frame hwatch hframe hfate hallowed hslots, ?_, ?_⟩
  · rw [hbytes]
    exact hresult
  · rw [hbytes]
    exact hlength

/-- The loop accounts for the frames that it reads. -/
theorem readWatches_accounts {xs : List (Option InotifyWatch × ℕ)}
    (hxs : ∀ p ∈ xs, watches[p.2]? = some p.1) (houtput : output.length ≤ length) :
    (readWatches a owner length xs output).AccountsFor watches a length (fun _ => True) output := by
  induction xs generalizing output with
  | nil => exact accountsFor_end _ houtput .nil
  | cons x xs ih =>
    have hrest : ∀ p ∈ xs, watches[p.2]? = some p.1 := fun p hp => hxs p (mem_cons_of_mem _ hp)
    have hwatch := hxs x mem_cons_self
    obtain ⟨_ | w, index⟩ := x
    · exact ih hrest houtput
    · unfold readWatches
      by_cases hready : w.owner = owner ∧ w.ready = true
      · rw [if_pos hready]
        dsimp only at hwatch ⊢
        cases hread : a.read index with
        | error name =>
          have hframe : a.frame index = none := by
            unfold FrameAnswers.frame
            rw [hread]
          exact accountsFor_end _ houtput (.unread hframe)
        | ok bytes =>
          cases hframe : a.frame index with
          | none => exact accountsFor_end _ houtput (.unread hframe)
          | some frame =>
            obtain ⟨type, path⟩ := frame
            have htype := FrameAnswers.frame_type hframe
            dsimp only
            cases hevent : watchEvent w (a.stat index) type path with
            | none =>
              obtain ⟨fate, hfate⟩ := watchEvent_none htype hevent
              have hnext : (readWatches a owner length xs output).AccountsFor watches a length
                  (fun _ => True) (output ++ [].flatMap InotifyRecord.bytes) := by
                rw [flatMap_nil, append_nil]
                exact ih hrest houtput
              exact accountsFor_frame hwatch hframe hfate trivial hnext
            | some r =>
              have htells := watchEvent_some htype hevent
              dsimp only
              cases hplace : r.place (length - output.length) with
              | some bytes =>
                obtain ⟨rfl, hroom⟩ := InotifyRecord.place_some hplace
                have hnext : (readWatches a owner length xs (output ++ r.bytes)).AccountsFor watches
                    a length (fun _ => True) (output ++ [r].flatMap InotifyRecord.bytes) := by
                  rw [flatMap_singleton]
                  apply ih hrest
                  rw [length_append, r.length_bytes]
                  omega
                exact accountsFor_frame hwatch hframe (.returned htells) trivial hnext
              | none =>
                have hsize := InotifyRecord.place_none hplace
                have hroom : length < output.length + r.size := by omega
                have hend : Accounted watches a length (fun _ => True) output.length [index] [] :=
                  .unplaced hwatch hframe htells hroom trivial
                by_cases hempty : output = []
                · subst hempty
                  dsimp only
                  rw [if_neg (by simp)]
                  cases hlost : overflowRecord.place length with
                  | none => exact accountsFor_end _ houtput hend
                  | some bytes =>
                    obtain ⟨rfl, hoverflow⟩ := InotifyRecord.place_some hlost
                    have hnext : (readWatches a owner length xs overflowRecord.bytes).AccountsFor
                        watches a length (fun _ => True)
                        ([] ++ [overflowRecord].flatMap InotifyRecord.bytes) := by
                      rw [flatMap_singleton, nil_append]
                      apply ih hrest
                      rw [InotifyRecord.length_bytes]
                      exact hoverflow
                    exact accountsFor_frame hwatch hframe .overflowed trivial hnext
                · dsimp only
                  rw [if_pos hempty]
                  have hresult : returned output .EAGAIN = .ok output := if_neg hempty
                  rw [← hresult]
                  exact accountsFor_end _ houtput hend
      · rw [if_neg hready]
        exact ih hrest houtput

theorem inotifyRead_accounts (t : HostTables) (buffer : Bool) :
    (t.inotifyRead owner buffer length a).2.AccountsFor t.watches a length (fun _ => True) [] := by
  unfold HostTables.inotifyRead
  split_ifs with hbuffer
  · exact accountsFor_end .EINVAL (Nat.zero_le _) .nil
  · apply readWatches_accounts
    · intro p hp
      rw [mem_zipIdx_iff_getElem?] at hp
      exact hp
    · exact Nat.zero_le _

end Read

/-! ### Runs -/

structure InotifyReadCall where
  tables : HostTables
  length : ℕ
  answers : FrameAnswers
  outcome : InotifyOutcome

def HostOp.readCall (t : HostTables) (env : HostEnv) : HostOp → Option InotifyReadCall
  | .inotifyRead ifd buffer length a =>
    (t.inotifyIndex env ifd).map fun owner =>
      ⟨t, length, a, (t.inotifyRead owner buffer length a).2⟩
  | _ => none

def HostTables.inotifyReads (t : HostTables) : List (HostEnv × HostOp) → List InotifyReadCall
  | [] => []
  | (env, op) :: steps => (op.readCall t env).toList ++ (t.after env op).inotifyReads steps

def InotifyReadCall.Accounts (c : InotifyReadCall) (allowed : Fate → Prop) : Prop :=
  c.outcome.AccountsFor c.tables.watches c.answers c.length allowed []

/-- The reads of every run account for their frames. -/
theorem inotifyReads_account (t : HostTables) (steps : List (HostEnv × HostOp)) :
    ∀ c ∈ t.inotifyReads steps, c.Accounts fun _ => True := by
  induction steps generalizing t with
  | nil => exact fun c hc => absurd hc not_mem_nil
  | cons s steps ih =>
    obtain ⟨env, op⟩ := s
    intro c hc
    rcases mem_append.mp hc with hfirst | hlater
    · rw [Option.mem_toList] at hfirst
      unfold HostOp.readCall at hfirst
      split at hfirst
      · obtain ⟨owner, -, rfl⟩ := Option.map_eq_some_iff.mp hfirst
        exact inotifyRead_accounts t _
      · cases hfirst
    · exact ih _ c hlater

/-- The watch of `/a` for changes, and a host that reports one of `/a` itself. -/
def watchedTables : HostTables :=
  { HostTables.start with
    inotifies := (some ⟨7, epollFdBase, -1, 0, inner_epollFdBase⟩) ::
      List.replicate (inotifyInstanceLimit - 1) none
    watches := (some ⟨0, taggedFdBase, 2, true, [47, 97], by decide⟩) ::
      List.replicate (inotifyWatchLimit - 1) none }

def ownPathAnswers : FrameAnswers where
  read _ := .ok [0x54, 0x4b, 0x57, 0x31, 1, 2, 0, 0, 0, 47, 97]
  stat _ := none

/-- The read of this watch accounts for its frame. -/
theorem inotifyReads_account_watched :
    InotifyReadCall.Accounts
      ⟨watchedTables, 4096, ownPathAnswers,
        (watchedTables.inotifyRead 0 true 4096 ownPathAnswers).2⟩ fun _ => True :=
  inotifyReads_account watchedTables
    [(⟨7, true, true, fun _ => none⟩, .inotifyRead inotifyFdBase true 4096 ownPathAnswers)] _
    (mem_append_left _ (mem_singleton_self _))

theorem readWatches_free {a : FrameAnswers} {owner length n k : ℕ} {output : List UInt8} :
    readWatches a owner length ((List.replicate n none).zipIdx k) output =
      ⟨[], returned output .EAGAIN⟩ := by
  induction n generalizing k with
  | zero => rfl
  | succ n ih => exact ih

/-- The frames that may disappear by the claim: those outside of the mask only. -/
def Fate.Visible (f : Fate) : Prop := f = .returned ∨ f = .suppressed ∨ f = .overflowed

theorem watchedTables_read :
    (watchedTables.inotifyRead 0 true 4096 ownPathAnswers).2 = ⟨[0], .error .EAGAIN⟩ := by
  show readWatches ownPathAnswers 0 4096 watchedTables.watches.zipIdx [] = _
  unfold watchedTables
  dsimp only
  rw [zipIdx_cons]
  unfold readWatches
  rw [if_pos ⟨rfl, rfl⟩]
  have hframe : ownPathAnswers.frame 0 = some (1, [47, 97]) := by decide
  have hevent : watchEvent ⟨0, taggedFdBase, 2, true, [47, 97], by decide⟩ none 1 [47, 97] =
      none := by decide
  rw [hframe]
  dsimp only [ownPathAnswers]
  rw [hevent]
  dsimp only
  rw [readWatches_free]
  rfl

theorem flatMap_bytes_ne_nil {records : List InotifyRecord} :
    ([r] ++ records).flatMap InotifyRecord.bytes ≠ [] := by
  intro h
  have hlength := congrArg List.length h
  rw [length_flatMap_bytes, singleton_append, map_cons, sum_cons, length_nil] at hlength
  unfold InotifyRecord.size at hlength
  omega

theorem returned_eq_error {output : List UInt8} {err err' : Errno}
    (h : returned output err = .error err') : output = [] := by
  unfold returned at h
  split_ifs at h with hempty
  exact hempty

/-- A change of the watched path is in the mask, and the read says nothing of it. -/
theorem ownPath_disappears :
    ¬ ∀ c ∈ watchedTables.inotifyReads
      [(⟨7, true, true, fun _ => none⟩, .inotifyRead inotifyFdBase true 4096 ownPathAnswers)],
      c.Accounts Fate.Visible := by
  intro h
  obtain ⟨records, err, hslots, hresult, -⟩ := h
    ⟨watchedTables, 4096, ownPathAnswers, (watchedTables.inotifyRead 0 true 4096 ownPathAnswers).2⟩
    (mem_append_left _ (mem_singleton_self _))
  dsimp only at hslots hresult
  rw [watchedTables_read] at hslots hresult
  have hbytes := returned_eq_error hresult.symm
  rw [nil_append] at hbytes
  have hframe : ownPathAnswers.frame 0 = some (1, [47, 97]) := by decide
  cases hslots with
  | unread hnone => exact absurd (hframe.symm.trans hnone) (by simp)
  | unplaced _ _ _ _ hallowed => rcases hallowed with h | h | h <;> cases h
  | frame hwatch hsome hfate hallowed hrest =>
    cases hframe.symm.trans hsome
    cases Option.some.inj hwatch
    cases hfate with
    | returned => exact flatMap_bytes_ne_nil hbytes
    | suppressed _ hpath => exact hpath rfl
    | overflowed => exact flatMap_bytes_ne_nil hbytes
    | ownPath => rcases hallowed with h | h | h <;> cases h

end TraceJvm
