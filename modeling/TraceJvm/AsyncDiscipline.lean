import TraceJvm.AsyncChains

/-! The async stack of a thread holds the continuations of its suspended chains and no others, as
long as no frame has the monitor of its entry late. -/
namespace TraceJvm

open Transition List Option

namespace CallChain

variable (c : CallChain)

def below : List ChainFrame :=
  match c.above with
  | [] => []
  | _ :: fs => fs ++ [c.entry]

def holds : Bool :=
  (c.point = .start ∨ c.point = .begin) ∧ c.current.isAsyncSuspended = true

def ids : List ℕ := c.frames.map ChainFrame.id

@[simp] theorem current_setCurrent (f : ChainFrame) : (c.setCurrent f).current = f := by
  unfold setCurrent current
  cases c.above <;> rfl

@[simp] theorem current_markCurrent (b : Bool) :
    (c.markCurrent b).current = { c.current with isAsyncSuspended := b } :=
  current_setCurrent c _

@[simp] theorem current_setSynchronized (y : SynchronizedState) :
    (c.setSynchronized y).current = { c.current with synchronizedState := y } :=
  current_setCurrent c _

@[simp] theorem current_goto (p : ChainPoint) : (c.goto p).current = c.current := rfl

@[simp] theorem point_goto (p : ChainPoint) : (c.goto p).point = p := rfl

@[simp] theorem ids_goto (p : ChainPoint) : (c.goto p).ids = c.ids := rfl

theorem frames_eq : c.frames = c.current :: c.below := by
  unfold frames current below
  cases c.above <;> rfl

theorem current_mem : c.current ∈ c.frames := by
  rw [frames_eq]
  exact mem_cons_self

theorem ids_setCurrent {f : ChainFrame} (h : f.id = c.current.id) :
    (c.setCurrent f).ids = c.ids := by
  unfold ids frames setCurrent
  unfold current at h
  cases hc : c.above <;> simp_all

theorem ids_markCurrent (b : Bool) : (c.markCurrent b).ids = c.ids :=
  ids_setCurrent c rfl

theorem ids_setSynchronized (y : SynchronizedState) : (c.setSynchronized y).ids = c.ids :=
  ids_setCurrent c rfl

theorem ids_markEntry (b : Bool) : (c.markEntry b).ids = c.ids := by
  simp [ids, frames, markEntry]

end CallChain

/-- The frame has passed `on_frame_start`. -/
def ChainFrame.Entered (f : ChainFrame) : Prop :=
  f.synchronizedState ≠ .inProgress ∧ (f.synchronized = true → f.synchronizedState = .done)

def ChainFrame.Waiting (f : ChainFrame) : Prop :=
  f.synchronized = true ∧ f.synchronizedState = .inProgress

namespace CallChain

variable {c : CallChain}

/-- Only interpreted frames make calls, and of the frames that wait for a call to end none is marked
but the entry frame. -/
structure Stacked (c : CallChain) : Prop where
  below : ∀ f ∈ c.below, f.native = false ∧ f.Entered
  middle : ∀ f ∈ c.above.tail, f.isAsyncSuspended = false

theorem Stacked.setCurrent (h : c.Stacked) (f : ChainFrame) : (c.setCurrent f).Stacked := by
  obtain ⟨entry, above, point⟩ := c
  cases above with
  | nil | cons g fs => exact ⟨h.below, h.middle⟩

theorem Stacked.goto (h : c.Stacked) (p : ChainPoint) : (c.goto p).Stacked :=
  ⟨h.below, h.middle⟩

theorem Stacked.markEntry (h : c.Stacked) (b : Bool) : (c.markEntry b).Stacked := by
  obtain ⟨entry, above, point⟩ := c
  cases above with
  | nil => exact ⟨h.below, h.middle⟩
  | cons g fs =>
    refine ⟨fun f hf => ?_, h.middle⟩
    rcases mem_append.mp hf with hf | hf
    · exact h.below f (mem_append_left _ hf)
    · obtain rfl := mem_singleton.mp hf
      exact h.below entry (mem_append_right _ (mem_singleton.mpr rfl))

def AtPoint (c : CallChain) : Prop :=
  match c.point with
  | .start =>
      c.current.isAsyncSuspended = true ∧ c.entry.isAsyncSuspended = true ∧
          (c.current.Waiting ∨ c.current.Entered) ∨
        c.current.isAsyncSuspended = false ∧ c.entry.isAsyncSuspended = false ∧
          c.current.synchronizedState = .none
  | .begin =>
      c.current.Entered ∧ (c.current.native = false → c.current.isAsyncSuspended = false →
        c.entry.isAsyncSuspended = false)
  | .resuming =>
      c.current.Entered ∧ (c.current.native = false → c.entry.isAsyncSuspended = false)
  | .running =>
      c.current.Entered ∧ c.current.isAsyncSuspended = false ∧
        (c.current.native = false → c.entry.isAsyncSuspended = false)
  | .unwinding =>
      c.current.Entered ∧ c.current.isAsyncSuspended = false ∧
        c.current.native = false ∧ c.entry.isAsyncSuspended = false

structure ChainInv (c : CallChain) : Prop where
  stacked : c.Stacked
  atPoint : c.AtPoint

theorem ChainInv.fresh {f : ChainFrame} (hflag : f.isAsyncSuspended = false)
    (hstate : f.synchronizedState = .none) : ChainInv ⟨f, [], .start⟩ where
  stacked := ⟨fun _ h => absurd h not_mem_nil, fun _ h => absurd h not_mem_nil⟩
  atPoint := .inr ⟨hflag, hflag, hstate⟩

/-- Where instructions of an interpreted frame run, neither the frame nor the entry frame is
marked. -/
theorem ChainInv.push (h : ChainInv c) (hpoint : c.point = .running)
    (hnative : c.current.native = false) {f : ChainFrame} (hflag : f.isAsyncSuspended = false)
    (hstate : f.synchronizedState = .none) :
    ChainInv { c with above := f :: c.above, point := .start } := by
  have hat := h.atPoint
  simp only [AtPoint, hpoint] at hat
  obtain ⟨hentered, hunmarked, hentry⟩ := hat
  refine ⟨⟨fun g hg => ?_, fun g hg => ?_⟩, .inr ⟨hflag, hentry hnative, hstate⟩⟩
  · have hmem : g ∈ c.frames := hg
    rw [frames_eq] at hmem
    rcases mem_cons.mp hmem with rfl | hmem
    · exact ⟨hnative, hentered⟩
    · exact h.stacked.below g hmem
  · have hmem : g ∈ c.above := hg
    cases habove : c.above with
    | nil =>
      rw [habove] at hmem
      exact absurd hmem not_mem_nil
    | cons top fs =>
      rw [habove] at hmem
      rcases mem_cons.mp hmem with rfl | hmem
      · simpa [current, habove] using hunmarked
      · exact h.stacked.middle g (by rwa [habove])

theorem ChainInv.park (h : c.Stacked) (hcurrent : c.current.Waiting ∨ c.current.Entered) :
    ChainInv (((c.markCurrent true).markEntry true).goto .start) where
  stacked := ((h.setCurrent _).markEntry true).goto _
  atPoint := by
    obtain ⟨entry, above, point⟩ := c
    cases above with
    | nil | cons f fs => exact .inl ⟨rfl, rfl, hcurrent⟩

theorem ChainInv.entered (h : ChainInv c) (hpoint : c.point ≠ .start) : c.current.Entered := by
  have hat := h.atPoint
  unfold AtPoint at hat
  cases hp : c.point with
  | start => exact absurd hp hpoint
  | begin | resuming | running | unwinding =>
    rw [hp] at hat
    exact hat.1

/-- An interpreted frame that has the monitor it has waited for is the entry frame. -/
def InTime (c : CallChain) : Prop :=
  c.current.synchronizedState = .inProgress → c.current.native = false → c.above = []

theorem ChainInv.acquired (h : ChainInv c) (hpoint : c.point = .start)
    (hsync : c.current.synchronized = true) (hstate : c.current.synchronizedState ≠ .done)
    (htime : c.InTime) :
    ChainInv (((c.setSynchronized .done).markCurrent false).goto .begin) where
  stacked := ((h.stacked.setCurrent _).setCurrent _).goto _
  atPoint := by
    have hat := h.atPoint
    simp only [AtPoint, hpoint] at hat
    obtain ⟨entry, above, point⟩ := c
    cases above with
    | nil => exact ⟨⟨SynchronizedState.noConfusion, fun _ => rfl⟩, fun _ _ => rfl⟩
    | cons f fs =>
      refine ⟨⟨SynchronizedState.noConfusion, fun _ => rfl⟩, fun hnative _ => ?_⟩
      rcases hat with ⟨-, -, hwait | hentered⟩ | ⟨-, hentry, -⟩
      · exact absurd (htime hwait.2 hnative) (cons_ne_nil f fs)
      · exact absurd (hentered.2 hsync) hstate
      · exact hentry

theorem ChainInv.unmarked_of_fresh (h : ChainInv c) (hpoint : c.point = .start)
    (hsync : c.current.synchronized = true) (hstate : c.current.synchronizedState ≠ .done)
    (hfresh : c.current.synchronizedState ≠ .inProgress) : c.current.isAsyncSuspended = false := by
  have hat := h.atPoint
  simp only [AtPoint, hpoint] at hat
  rcases hat with ⟨-, -, hwait | hentered⟩ | ⟨hunmarked, -, -⟩
  · exact absurd hwait.2 hfresh
  · exact absurd (hentered.2 hsync) hstate
  · exact hunmarked

/-- The frame needs no monitor, or has it. -/
theorem ChainInv.started (h : ChainInv c) (hpoint : c.point = .start)
    (hsync : ¬ (c.current.synchronized = true ∧ c.current.synchronizedState ≠ .done)) :
    ChainInv (c.goto .begin) where
  stacked := h.stacked.goto _
  atPoint := by
    have hat := h.atPoint
    simp only [AtPoint, hpoint] at hat
    rcases hat with ⟨hmarked, -, hwait | hentered⟩ | ⟨-, hentry, hnone⟩
    · refine absurd ⟨hwait.1, fun hdone => ?_⟩ hsync
      rw [hwait.2] at hdone
      exact SynchronizedState.noConfusion hdone
    · refine ⟨hentered, fun _ hunmarked => ?_⟩
      rw [current_goto, hmarked] at hunmarked
      exact Bool.noConfusion hunmarked
    · refine ⟨⟨fun hprogress => ?_, fun hs => ?_⟩, fun _ _ => hentry⟩
      · rw [current_goto, hnone] at hprogress
        exact SynchronizedState.noConfusion hprogress
      · by_contra hdone
        exact hsync ⟨hs, hdone⟩

theorem ChainInv.resume (h : ChainInv c) (hpoint : c.point = .begin) :
    ChainInv ((if c.current.native then c else c.markEntry false).goto .resuming) := by
  have hentered : c.current.Entered := h.entered (by rw [hpoint]; exact ChainPoint.noConfusion)
  cases hnative : c.current.native with
  | true =>
    refine ⟨h.stacked.goto _, hentered, fun hn => ?_⟩
    rw [if_pos rfl, current_goto, hnative] at hn
    exact Bool.noConfusion hn
  | false =>
    refine ⟨(h.stacked.markEntry false).goto _, ?_⟩
    obtain ⟨entry, above, point⟩ := c
    cases above with
    | nil | cons f fs => exact ⟨hentered, fun _ => rfl⟩

theorem ChainInv.run (h : ChainInv c) (hpoint : c.point = .begin)
    (hunmarked : c.current.isAsyncSuspended = false) : ChainInv (c.goto .running) := by
  have hat := h.atPoint
  simp only [AtPoint, hpoint] at hat
  exact ⟨h.stacked.goto _, hat.1, hunmarked, fun hnative => hat.2 hnative hunmarked⟩

theorem ChainInv.resumed (h : ChainInv c) (hpoint : c.point = .resuming)
    (hnative : c.current.native = false) :
    ChainInv ((c.markCurrent false).goto .running) where
  stacked := (h.stacked.setCurrent _).goto _
  atPoint := by
    have hat := h.atPoint
    simp only [AtPoint, hpoint] at hat
    obtain ⟨entry, above, point⟩ := c
    cases above with
    | nil => exact ⟨hat.1, rfl, fun _ => rfl⟩
    | cons f fs => exact ⟨hat.1, rfl, fun _ => hat.2 hnative⟩

theorem ChainInv.again (h : ChainInv c) (hpoint : c.point = .running ∨ c.point = .unwinding)
    (hnative : c.current.native = false) : ChainInv (c.goto .begin) := by
  have hat := h.atPoint
  refine ⟨h.stacked.goto _, ?_⟩
  rcases hpoint with hpoint | hpoint
  · simp only [AtPoint, hpoint] at hat
    exact ⟨hat.1, fun _ _ => hat.2.2 hnative⟩
  · simp only [AtPoint, hpoint] at hat
    exact ⟨hat.1, fun _ _ => hat.2.2.2⟩

theorem ChainInv.unmarked_of_running (h : ChainInv c)
    (hpoint : c.point = .running ∨ c.point = .unwinding) : c.current.isAsyncSuspended = false := by
  have hat := h.atPoint
  rcases hpoint with hpoint | hpoint
  · simp only [AtPoint, hpoint] at hat
    exact hat.2.1
  · simp only [AtPoint, hpoint] at hat
    exact hat.2.1

theorem ChainInv.unwound {entry f : ChainFrame} {fs : List ChainFrame} {point : ChainPoint}
    (h : Stacked ⟨entry, f :: fs, point⟩) (hentry : entry.isAsyncSuspended = false) :
    ChainInv ⟨entry, fs, .unwinding⟩ := by
  have hmem : ∀ g ∈ frames ⟨entry, fs, .unwinding⟩, g.native = false ∧ g.Entered := h.below
  refine ⟨⟨fun g hg => hmem g ?_, fun g hg => h.middle g (mem_of_mem_tail hg)⟩, ?_⟩
  · rw [frames_eq]
    exact mem_cons_of_mem _ hg
  · obtain ⟨hnative, hentered⟩ := hmem _ (current_mem _)
    refine ⟨hentered, ?_, hnative, hentry⟩
    cases fs with
    | nil => exact hentry
    | cons g gs => exact h.middle g mem_cons_self

end CallChain

namespace ChainThread

open CallChain

variable {s s' : ChainThread} {c c' : CallChain} {cs : List CallChain} {ks : List Continuation}

def Leaves (k : Continuation) (c : CallChain) : Prop :=
  k.frame = c.current.id ∧ k.suits c.current = true

def ids (s : ChainThread) : List ℕ := (s.parked.reverse ++ s.active).flatMap CallChain.ids

theorem map_frames (s : ChainThread) : s.frames.map ChainFrame.id = s.ids := by
  unfold frames ids
  rw [map_flatMap]
  exact rfl

/-- The chains that stand before their continuation is popped, the innermost first, own the async
stack. -/
structure AsyncInv (s : ChainThread) : Prop where
  active : ∀ c ∈ s.active, ChainInv c
  calling : ∀ c ∈ s.active.tail, c.point ≠ .start ∧ c.point ≠ .begin
  parked : ∀ c ∈ s.parked, ChainInv c ∧ c.point = .start ∧ c.current.isAsyncSuspended = true
  stack : List.Forall₂ Leaves s.asyncStack (s.active.filter holds ++ s.parked)
  distinct : s.ids.Nodup
  fresh : ∀ i ∈ s.ids, i < s.nextFrame

theorem holds_eq_false (h : c.point ≠ .start ∧ c.point ≠ .begin) : c.holds = false := by
  simp [holds, h.1, h.2]

theorem holds_of_unmarked (h : c.current.isAsyncSuspended = false) : c.holds = false := by
  simp [holds, h]

theorem singleton_filter (h : c.holds = false) : [c].filter holds ++ cs = cs := by
  rw [filter_cons_of_neg (by rw [h]; exact Bool.false_ne_true)]
  exact rfl

theorem singleton_filter_pos (h : c.holds = true) : [c].filter holds ++ cs = c :: cs := by
  rw [filter_cons_of_pos h]
  exact rfl

theorem filter_holds (h : ∀ c ∈ cs, c.point ≠ .start ∧ c.point ≠ .begin) :
    cs.filter holds = [] := by
  apply filter_eq_nil_iff.mpr
  intro c hc
  rw [holds_eq_false (h c hc)]
  exact Bool.false_ne_true

namespace AsyncInv

theorem innermost (h : AsyncInv s) (hs : s.active = c :: cs) : ChainInv c := by
  apply h.active
  rw [hs]
  exact mem_cons_self

theorem outer (h : AsyncInv s) (hs : s.active = c :: cs) :
    ∀ d ∈ cs, d.point ≠ .start ∧ d.point ≠ .begin := by
  have hcalling := h.calling
  rwa [hs] at hcalling

theorem stack_cons (h : AsyncInv s) (hs : s.active = c :: cs) :
    List.Forall₂ Leaves s.asyncStack ([c].filter holds ++ s.parked) := by
  have hstack := h.stack
  rwa [hs, ← singleton_append, filter_append, filter_holds (h.outer hs), append_nil] at hstack

theorem stack_of_holds (h : AsyncInv s) (hs : s.active = c :: cs) (hc : c.holds = true) :
    List.Forall₂ Leaves s.asyncStack (c :: s.parked) := by
  rw [← singleton_filter_pos hc]
  exact h.stack_cons hs

theorem stack_of_not_holds (h : AsyncInv s) (hs : s.active = c :: cs) (hc : c.holds = false) :
    List.Forall₂ Leaves s.asyncStack s.parked := by
  rw [← (singleton_filter hc : [c].filter holds ++ s.parked = s.parked)]
  exact h.stack_cons hs

theorem ids_cons (hs : s.active = c :: cs) :
    s.ids = s.parked.reverse.flatMap CallChain.ids ++ (c.ids ++ cs.flatMap CallChain.ids) := by
  unfold ids
  rw [hs, flatMap_append, flatMap_cons]

theorem replace (h : AsyncInv s) (hs : s.active = c :: cs) (hc : ChainInv c')
    (hids : c'.ids = c.ids) (hks : List.Forall₂ Leaves ks ([c'].filter holds ++ s.parked)) :
    AsyncInv (s.replace c' cs ks) := by
  have hsame : (s.replace c' cs ks).ids = s.ids := by
    rw [ids_cons hs, ids_cons (show (s.replace c' cs ks).active = c' :: cs from rfl), hids]
    exact rfl
  constructor
  · intro d hd
    rcases mem_cons.mp hd with rfl | hd
    · exact hc
    · apply h.active
      rw [hs]
      exact mem_cons_of_mem _ hd
  · exact h.outer hs
  · exact h.parked
  · show List.Forall₂ Leaves ks ((c' :: cs).filter holds ++ s.parked)
    rwa [← singleton_append, filter_append, filter_holds (h.outer hs), append_nil]
  · rw [hsame]
    exact h.distinct
  · rw [hsame]
    exact h.fresh

/-- A chain that is suspended leaves the top continuation. -/
theorem park (h : AsyncInv s) (hs : s.active = c :: cs) (hc : c'.Stacked)
    (hcurrent : c'.current.Waiting ∨ c'.current.Entered) (hids : c'.ids = c.ids)
    {point : ContinuationPoint}
    (hsuits : Continuation.suits ⟨point, c'.current.id⟩ c'.current = true)
    (hks : List.Forall₂ Leaves ks s.parked) : AsyncInv (s.park c' cs point ks) := by
  have hpark := ChainInv.park hc hcurrent
  have hmarked : ((c'.markCurrent true).markEntry true).current =
      { c'.current with isAsyncSuspended := true } := by
    unfold markCurrent markEntry setCurrent current
    cases c'.above <;> exact rfl
  have hsame : (s.park c' cs point ks).ids = s.ids := by
    rw [ids_cons hs, ← hids]
    unfold ids ChainThread.park
    simp only [reverse_cons, append_assoc, flatMap_append, flatMap_cons,
      flatMap_nil, append_nil, ids_goto, ids_markEntry, ids_markCurrent]
  constructor
  · intro d hd
    apply h.active
    rw [hs]
    exact mem_cons_of_mem _ hd
  · intro d hd
    exact h.outer hs d (mem_of_mem_tail hd)
  · intro d hd
    rcases mem_cons.mp hd with rfl | hd
    · exact ⟨hpark, rfl, by rw [current_goto, hmarked]⟩
    · exact h.parked d hd
  · show List.Forall₂ Leaves (_ :: ks) (cs.filter holds ++ _ :: s.parked)
    rw [filter_holds (h.outer hs), nil_append]
    refine .cons ⟨?_, ?_⟩ hks
    · rw [current_goto, hmarked]
    · rw [current_goto, hmarked]
      exact hsuits
  · rw [hsame]
    exact h.distinct
  · rw [hsame]
    exact h.fresh

theorem asyncStackPop_some {f : ChainFrame} (h : s.asyncStackPop f = some ks) :
    ∃ k, s.asyncStack = k :: ks ∧ k.frame = f.id ∧ k.suits f = true := by
  unfold asyncStackPop at h
  cases hstack : s.asyncStack with
  | nil =>
    rw [hstack] at h
    simp at h
  | cons k rest =>
    rw [hstack] at h
    dsimp only at h
    split at h
    · rename_i hk
      cases h
      exact ⟨k, rfl, hk⟩
    · simp at h

theorem popped (h : AsyncInv s) (hs : s.active = c :: cs) (hc : c.holds = true) {f : ChainFrame}
    (hpop : s.asyncStackPop f = some ks) : List.Forall₂ Leaves ks s.parked := by
  obtain ⟨k, hk, -⟩ := asyncStackPop_some hpop
  have hstack := h.stack_of_holds hs hc
  rw [hk] at hstack
  exact (forall₂_cons.mp hstack).2

theorem holds_of_waiting (h : ChainInv c) (hpoint : c.point = .start)
    (hstate : c.current.synchronizedState ≠ .none) : c.holds = true := by
  have hat := h.atPoint
  simp only [AtPoint, hpoint] at hat
  rcases hat with ⟨hmarked, -, -⟩ | ⟨-, -, hnone⟩
  · simp [holds, hpoint, hmarked]
  · exact absurd hnone hstate

theorem holds_of_begin (hpoint : c.point = .begin)
    (hmarked : c.current.isAsyncSuspended = true) : c.holds = true := by
  simp [holds, hpoint, hmarked]

theorem ids_enter (hparked : s.parked = []) (f : ChainFrame) (p : ChainPoint) (n : ℕ) :
    ids { s with active := ⟨f, [], p⟩ :: s.active, nextFrame := n } = f.id :: s.ids := by
  unfold ids
  rw [hparked]
  exact rfl

theorem outermost_enter (h : AsyncInv s) (hcan : s.canEnter = true) :
    ∀ d ∈ s.active, d.point ≠ .start ∧ d.point ≠ .begin := by
  intro d hd
  have hcalling := h.calling
  unfold canEnter at hcan
  cases hs : s.active with
  | nil =>
    rw [hs] at hd
    exact absurd hd not_mem_nil
  | cons c cs =>
    rw [hs] at hd hcan hcalling
    rcases mem_cons.mp hd with rfl | hd
    · simpa using hcan
    · exact hcalling d hd

theorem canEnter_of_canReenter (hcan : s.canReenter = true) : s.canEnter = true := by
  unfold canReenter at hcan
  unfold canEnter
  cases hs : s.active with
  | nil => exact rfl
  | cons c cs =>
    rw [hs] at hcan
    have hpoint : c.point = .resuming := by simpa using hcan
    simp [hpoint]

theorem enter (h : AsyncInv s) (hcan : s.canEnter = true) (hparked : s.parked = [])
    (native synchronized : Bool) :
    AsyncInv { s with
      active := ⟨s.newFrame native synchronized, [], .start⟩ :: s.active
      nextFrame := s.nextFrame + 1 } := by
  have houter := h.outermost_enter hcan
  have hids := ids_enter hparked (s.newFrame native synchronized) .start (s.nextFrame + 1)
  constructor
  · intro d hd
    rcases mem_cons.mp hd with rfl | hd
    · exact .fresh rfl rfl
    · exact h.active d hd
  · exact houter
  · exact h.parked
  · have hstack := h.stack
    rw [filter_holds houter] at hstack
    show List.Forall₂ Leaves s.asyncStack ((_ :: s.active).filter holds ++ s.parked)
    rw [filter_cons_of_neg (by rw [holds_of_unmarked rfl]; exact Bool.false_ne_true),
      filter_holds houter]
    exact hstack
  · rw [hids]
    exact nodup_cons.mpr ⟨fun hmem => Nat.lt_irrefl _ (h.fresh _ hmem), h.distinct⟩
  · rw [hids]
    intro i hi
    rcases mem_cons.mp hi with rfl | hi
    · exact Nat.lt_succ_self _
    · exact Nat.lt_succ_of_lt (h.fresh i hi)

theorem reenter (h : AsyncInv s) (hs : s.parked = c :: cs) (hcan : s.canReenter = true) :
    AsyncInv { s with active := c :: s.active, parked := cs } := by
  have houter := h.outermost_enter (canEnter_of_canReenter hcan)
  have hparked := h.parked
  have hstack := h.stack
  rw [hs] at hparked hstack
  obtain ⟨hchain, hpoint, hmarked⟩ := hparked c mem_cons_self
  have hids : ids { s with active := c :: s.active, parked := cs } = s.ids := by
    unfold ids
    rw [hs, reverse_cons, append_assoc, singleton_append]
  constructor
  · intro d hd
    rcases mem_cons.mp hd with rfl | hd
    · exact hchain
    · exact h.active d hd
  · exact houter
  · exact fun d hd => hparked d (mem_cons_of_mem _ hd)
  · show List.Forall₂ Leaves s.asyncStack ((c :: s.active).filter holds ++ cs)
    rw [filter_holds houter, nil_append] at hstack
    rw [filter_cons_of_pos (by simp [holds, hpoint, hmarked]), filter_holds houter]
    exact hstack
  · rw [hids]
    exact h.distinct
  · rw [hids]
    exact h.fresh

theorem suits_of_entered {f : ChainFrame} (h : f.Entered) {p : ContinuationPoint} {i : ℕ}
    (hp : if f.native then p = .runNative else p.ofInsn = true) :
    Continuation.suits ⟨p, i⟩ f = true := by
  unfold Continuation.suits
  rw [if_neg h.1]
  split at hp
  · rename_i hnative
    simpa [hnative] using hp
  · rename_i hnative
    simpa [hnative] using hp

/-- `on_frame_start` keeps the async stack as it should be unless the frame has its monitor late. -/
theorem onFrameStart (h : AsyncInv s) (hs : s.active = c :: cs) (hpoint : c.point = .start)
    {ready : Bool} (htime : ready = true → c.InTime)
    (hstep : s.onFrameStart c cs ready = some s') : AsyncInv s' := by
  have hc := h.innermost hs
  unfold ChainThread.onFrameStart at hstep
  split at hstep
  · rename_i hsync
    obtain ⟨ks, hpop, rfl⟩ := map_eq_some_iff.mp hstep
    have hks : List.Forall₂ Leaves ks s.parked := by
      split at hpop
      · rename_i hprogress
        apply h.popped hs _ hpop
        apply holds_of_waiting hc hpoint
        rw [hprogress]
        exact SynchronizedState.noConfusion
      · rename_i hprogress
        cases hpop
        apply h.stack_of_not_holds hs (holds_of_unmarked _)
        exact hc.unmarked_of_fresh hpoint hsync.1 hsync.2 hprogress
    split
    · rename_i hready
      apply h.replace hs (hc.acquired hpoint hsync.1 hsync.2 (htime hready))
      · rw [ids_goto, ids_markCurrent, ids_setSynchronized]
      · rw [singleton_filter (holds_of_unmarked _)]
        · exact hks
        · rw [current_goto, current_markCurrent]
    · have hstacked : (c.setSynchronized .inProgress).Stacked := hc.stacked.setCurrent _
      apply h.park hs hstacked _ (ids_setSynchronized c _) _ hks
      · rw [current_setSynchronized]
        exact .inl ⟨hsync.1, rfl⟩
      · rw [current_setSynchronized]
        exact rfl
  · rename_i hsync
    split at hstep
    · cases hstep
      apply h.replace hs (hc.started hpoint hsync) (ids_goto c _)
      have hsame : (c.goto .begin).holds = c.holds := by simp [holds, hpoint]
      cases hholds : c.holds with
      | true =>
        rw [singleton_filter_pos (hsame.trans hholds)]
        obtain ⟨k, ks, hk, hks, hstack⟩ :=
          forall₂_cons_right_iff.mp (h.stack_of_holds hs hholds)
        rw [hstack]
        exact .cons hk hks
      | false =>
        rw [singleton_filter (hsame.trans hholds)]
        exact h.stack_of_not_holds hs hholds
    · simp at hstep

theorem beginFrame (h : AsyncInv s) (hs : s.active = c :: cs) (hpoint : c.point = .begin)
    (hstep : s.beginFrame c cs = some s') : AsyncInv s' := by
  have hc := h.innermost hs
  unfold ChainThread.beginFrame at hstep
  split at hstep
  · rename_i hmarked
    obtain ⟨ks, hpop, rfl⟩ := map_eq_some_iff.mp hstep
    apply h.replace hs (hc.resume hpoint)
    · rw [ids_goto]
      split
      · exact rfl
      · exact ids_markEntry c false
    · rw [singleton_filter (holds_eq_false ⟨ChainPoint.noConfusion, ChainPoint.noConfusion⟩)]
      exact h.popped hs (holds_of_begin hpoint hmarked) hpop
  · rename_i hmarked
    have hunmarked : c.current.isAsyncSuspended = false := eq_false_of_ne_true hmarked
    cases hstep
    apply h.replace hs (hc.run hpoint hunmarked) (ids_goto c _)
    rw [singleton_filter (holds_eq_false ⟨ChainPoint.noConfusion, ChainPoint.noConfusion⟩)]
    exact h.stack_of_not_holds hs (holds_of_unmarked hunmarked)

theorem pushFrame (h : AsyncInv s) (hs : s.active = c :: cs) (hpoint : c.point = .running)
    (hnative : c.current.native = false) (hparked : s.parked = []) (native synchronized : Bool) :
    AsyncInv (s.pushFrame c cs native synchronized) := by
  have hc := (h.innermost hs).push hpoint hnative (f := s.newFrame native synchronized) rfl rfl
  have hids : (s.pushFrame c cs native synchronized).ids = s.nextFrame :: s.ids := by
    rw [ids_cons hs, ids_cons (s := s.pushFrame c cs native synchronized) rfl, hparked]
    show s.parked.reverse.flatMap CallChain.ids ++ _ = _
    rw [hparked]
    exact rfl
  constructor
  · intro d hd
    rcases mem_cons.mp hd with rfl | hd
    · exact hc
    · apply h.active
      rw [hs]
      exact mem_cons_of_mem _ hd
  · exact h.outer hs
  · exact h.parked
  · have hrunning : c.holds = false := holds_eq_false (by rw [hpoint]; decide)
    show List.Forall₂ Leaves s.asyncStack ((_ :: cs).filter holds ++ s.parked)
    rw [filter_cons_of_neg (by rw [holds_of_unmarked rfl]; exact Bool.false_ne_true),
      filter_holds (h.outer hs)]
    exact h.stack_of_not_holds hs hrunning
  · rw [hids]
    exact nodup_cons.mpr ⟨fun hmem => Nat.lt_irrefl _ (h.fresh _ hmem), h.distinct⟩
  · rw [hids]
    intro i hi
    rcases mem_cons.mp hi with rfl | hi
    · exact Nat.lt_succ_self _
    · exact Nat.lt_succ_of_lt (h.fresh i hi)

theorem dropFrame (h : AsyncInv s) (hs : s.active = c :: cs) (hc : c.holds = false)
    {ds : List CallChain} (hds : ∀ d ∈ ds, ChainInv d)
    (hpoints : ∀ d ∈ ds, d.point ≠ .start ∧ d.point ≠ .begin)
    (hids : ds.flatMap CallChain.ids = (c.ids ++ cs.flatMap CallChain.ids).tail) :
    AsyncInv { s with active := ds } := by
  have hsub : List.Sublist (ids { s with active := ds }) s.ids := by
    rw [ids_cons hs]
    unfold ids
    rw [flatMap_append, hids]
    exact (List.Sublist.refl _).append (tail_sublist _)
  constructor
  · exact hds
  · exact fun d hd => hpoints d (mem_of_mem_tail hd)
  · exact h.parked
  · show List.Forall₂ Leaves s.asyncStack (ds.filter holds ++ s.parked)
    rw [filter_holds hpoints]
    exact h.stack_of_not_holds hs hc
  · exact h.distinct.sublist hsub
  · exact fun i hi => h.fresh i (hsub.subset hi)

theorem finishFrame (h : AsyncInv s) (hs : s.active = c :: cs)
    (hpoint : c.point = .running ∨ c.point = .unwinding ∨
      c.point = .resuming ∧ c.current.native = true) :
    AsyncInv (s.finishFrame c cs) := by
  have hc := h.innermost hs
  have hholds : c.holds = false := by
    apply holds_eq_false
    rcases hpoint with hp | hp | ⟨hp, -⟩ <;> rw [hp] <;> decide
  have hentry : c.current.native = false → c.entry.isAsyncSuspended = false := by
    intro hnative
    have hat := hc.atPoint
    rcases hpoint with hp | hp | ⟨hp, hn⟩
    · simp only [AtPoint, hp] at hat
      exact hat.2.2 hnative
    · simp only [AtPoint, hp] at hat
      exact hat.2.2.2
    · rw [hnative] at hn
      exact Bool.noConfusion hn
  have houter := h.outer hs
  have hactive : ∀ d ∈ cs, ChainInv d := fun d hd => h.active d (by rw [hs]; exact .tail _ hd)
  obtain ⟨entry, above, point⟩ := c
  cases above with
  | nil =>
    have hdrop := h.dropFrame hs hholds hactive houter rfl
    unfold ChainThread.finishFrame
    split <;> exact hdrop
  | cons f fs =>
    have hpop : ∀ e : ChainFrame, e.id = entry.id → e.isAsyncSuspended = false →
        Stacked ⟨e, f :: fs, point⟩ →
        AsyncInv { s with active := ⟨e, fs, .unwinding⟩ :: cs } := by
      intro e hid hunmarked hstacked
      apply h.dropFrame hs hholds
      · intro d hd
        rcases mem_cons.mp hd with rfl | hd
        · exact .unwound hstacked hunmarked
        · exact hactive d hd
      · intro d hd
        rcases mem_cons.mp hd with rfl | hd
        · exact ⟨ChainPoint.noConfusion, ChainPoint.noConfusion⟩
        · exact houter d hd
      · simp [CallChain.ids, CallChain.frames, hid]
    unfold ChainThread.finishFrame
    cases hnative : f.native with
    | true =>
      have hstacked := (hc.stacked.setCurrent { f with isAsyncSuspended := false }).markEntry false
      simp only [current, hnative]
      exact hpop { entry with isAsyncSuspended := false } rfl rfl ⟨hstacked.below, hstacked.middle⟩
    | false =>
      simp only [current, hnative]
      exact hpop entry rfl (hentry hnative) hc.stacked

end AsyncInv

/-- No interpreted frame above the entry frame of its chain has the monitor of its entry late. -/
def EntersInTime (s : ChainThread) : ChainEvent → Prop
  | .start true => ∀ c cs, s.active = c :: cs → c.InTime
  | _ => True

theorem AsyncInv.innermostStep (h : AsyncInv s) (hs : s.active = c :: cs) {e : ChainEvent}
    (htime : s.EntersInTime e) (hstep : s.innermostStep c cs e = some s') : AsyncInv s' := by
  have hc := h.innermost hs
  unfold ChainThread.innermostStep at hstep
  split at hstep
  · rename_i ready
    obtain ⟨hpoint, hstart⟩ := ite_none_right_eq_some.mp hstep
    apply h.onFrameStart hs hpoint _ hstart
    rintro rfl
    exact htime c cs hs
  · obtain ⟨hpoint, hbegin⟩ := ite_none_right_eq_some.mp hstep
    exact h.beginFrame hs hpoint hbegin
  · obtain ⟨⟨hpoint, hnative, hparked⟩, hpush⟩ := ite_none_right_eq_some.mp hstep
    cases hpush
    exact h.pushFrame hs hpoint hnative hparked _ _
  · obtain ⟨⟨hpoint, hkind⟩, hpark⟩ := ite_none_right_eq_some.mp hstep
    cases hpark
    have hentered : c.current.Entered := by
      apply hc.entered
      rcases hpoint with hp | hp <;> rw [hp] <;> exact ChainPoint.noConfusion
    apply h.park hs hc.stacked (.inr hentered) rfl (suits_of_entered hentered hkind)
    apply h.stack_of_not_holds hs (holds_eq_false _)
    rcases hpoint with hp | hp <;> rw [hp] <;> decide
  · obtain ⟨⟨hpoint, hnative, -⟩, hready⟩ := ite_none_right_eq_some.mp hstep
    cases hready
    apply h.replace hs (hc.resumed hpoint hnative)
    · rw [ids_goto, ids_markCurrent]
    · rw [singleton_filter (holds_of_unmarked _)]
      · exact h.stack_of_not_holds hs (holds_eq_false (by rw [hpoint]; decide))
      · rw [current_goto, current_markCurrent]
  · obtain ⟨⟨hpoint, hnative, -⟩, hagain⟩ := ite_none_right_eq_some.mp hstep
    cases hagain
    apply h.replace hs (hc.again hpoint hnative) (ids_goto c _)
    rw [singleton_filter (holds_of_unmarked _)]
    · apply h.stack_of_not_holds hs (holds_eq_false _)
      rcases hpoint with hp | hp <;> rw [hp] <;> decide
    · exact hc.unmarked_of_running hpoint
  · obtain ⟨⟨hpoint, -⟩, hfinish⟩ := ite_none_right_eq_some.mp hstep
    cases hfinish
    exact h.finishFrame hs hpoint
  · simp at hstep

theorem AsyncInv.step (h : AsyncInv s) {e : ChainEvent} (htime : s.EntersInTime e)
    (hstep : chainStep s e = some s') : AsyncInv s' := by
  unfold chainStep at hstep
  split at hstep
  · obtain ⟨⟨hcan, hparked⟩, henter⟩ := ite_none_right_eq_some.mp hstep
    cases henter
    exact h.enter hcan hparked _ _
  · split at hstep
    · simp at hstep
    · rename_i c cs hs
      obtain ⟨⟨hcan, -⟩, hreenter⟩ := ite_none_right_eq_some.mp hstep
      cases hreenter
      exact h.reenter hs hcan
  · split at hstep
    · simp at hstep
    · rename_i c cs hs
      exact h.innermostStep hs htime hstep

theorem AsyncInv.idle : AsyncInv idle where
  active _ hc := absurd hc not_mem_nil
  calling _ hc := absurd hc not_mem_nil
  parked _ hc := absurd hc not_mem_nil
  stack := .nil
  distinct := nodup_nil
  fresh _ hi := absurd hi not_mem_nil

/-- `interpret_2` pops a continuation before the frame goes on. -/
def Pops (c : CallChain) : Prop :=
  c.point = .start ∧ c.current.synchronized = true ∧ c.current.synchronizedState = .inProgress ∨
    c.point = .begin ∧ c.current.isAsyncSuspended = true

/-- Where a frame that is marked is about to run, and wherever a continuation is popped, the top
continuation was left by the frame, and so it was where a suspended chain is entered again. A
continuation that is left is that of a frame of the thread that is marked. -/
structure AsyncRight (s : ChainThread) : Prop where
  marked : ∀ c cs, s.active = c :: cs → c.point = .start ∨ c.point = .begin →
    c.current.isAsyncSuspended = true ∨ Pops c → ∃ k ks, s.asyncStack = k :: ks ∧ Leaves k c
  reentered : ∀ c cs, s.parked = c :: cs → s.canReenter = true →
    s.firstFrame c = some c.current.id ∧ ∃ k ks, s.asyncStack = k :: ks ∧ Leaves k c
  owned : ∀ k ∈ s.asyncStack, ∃ f ∈ s.frames, f.id = k.frame ∧ f.isAsyncSuspended = true
  distinct : (s.frames.map ChainFrame.id).Nodup

theorem marked_of_pops (h : ChainInv c) (hpops : Pops c) : c.holds = true := by
  rcases hpops with ⟨hpoint, -, hprogress⟩ | ⟨hpoint, hmarked⟩
  · apply AsyncInv.holds_of_waiting h hpoint
    rw [hprogress]
    exact SynchronizedState.noConfusion
  · exact AsyncInv.holds_of_begin hpoint hmarked

theorem AsyncInv.top (h : AsyncInv s) (hs : s.active = c :: cs) (hc : c.holds = true) :
    ∃ k ks, s.asyncStack = k :: ks ∧ Leaves k c := by
  obtain ⟨k, ks, hk, -, hstack⟩ := forall₂_cons_right_iff.mp (h.stack_of_holds hs hc)
  exact ⟨k, ks, hstack, hk⟩

theorem AsyncInv.owner (h : AsyncInv s) (hc : c ∈ s.active.filter holds ++ s.parked) :
    c ∈ s.parked.reverse ++ s.active ∧ c.current.isAsyncSuspended = true := by
  rcases mem_append.mp hc with hc | hc
  · obtain ⟨hmem, hholds⟩ := mem_filter.mp hc
    refine ⟨mem_append_right _ hmem, ?_⟩
    have hboth : (c.point = .start ∨ c.point = .begin) ∧ c.current.isAsyncSuspended = true := by
      simpa [holds] using hholds
    exact hboth.2
  · exact ⟨mem_append_left _ (mem_reverse.mpr hc), (h.parked c hc).2.2⟩

theorem AsyncInv.right (h : AsyncInv s) : AsyncRight s where
  marked c cs hs hpoint hmarked := by
    apply h.top hs
    rcases hmarked with hmarked | hpops
    · simp [holds, hpoint, hmarked]
    · exact marked_of_pops (h.innermost hs) hpops
  reentered c cs hs hcan := by
    have hstack := h.stack
    rw [filter_holds (h.outermost_enter (canEnter_of_canReenter hcan)), hs, nil_append] at hstack
    obtain ⟨k, ks, hk, -, htop⟩ := forall₂_cons_right_iff.mp hstack
    refine ⟨?_, k, ks, htop, hk⟩
    obtain ⟨hchain, hpoint, hmarked⟩ := h.parked c (by rw [hs]; exact mem_cons_self)
    have hat := hchain.atPoint
    simp only [AtPoint, hpoint] at hat
    rcases hat with ⟨-, hentry, -⟩ | ⟨hunmarked, -, -⟩
    · unfold firstFrame
      rw [if_pos hentry, htop, ← hk.1]
      exact rfl
    · rw [hmarked] at hunmarked
      exact Bool.noConfusion hunmarked
  owned k hk := by
    obtain ⟨i, rfl⟩ := get_of_mem hk
    have hleft := h.stack.get i.isLt (h.stack.length_eq ▸ i.isLt)
    have howner := get_mem (s.active.filter holds ++ s.parked) ⟨i, h.stack.length_eq ▸ i.isLt⟩
    obtain ⟨hmem, hmarked⟩ := h.owner howner
    exact ⟨_, mem_flatMap.mpr ⟨_, hmem, current_mem _⟩, hleft.1.symm, hmarked⟩
  distinct := by
    rw [map_frames]
    exact h.distinct

/-- A synchronized method that is called from Java has its monitor after it has waited for it. -/
def lateEntry : List ChainEvent :=
  [.enter false false, .start true, .begin, .invoke false true, .start false, .reenter, .start true,
    .begin]

end ChainThread

end TraceJvm
