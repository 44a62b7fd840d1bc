import Mathlib.Data.Int.Notation
import TraceJvm.Lib.Outcome
import TraceJvm.Lib.SlotTable

/-! Linkage of `invokedynamic`. The function is a coroutine: what it keeps in its state survives a
suspension, and what it keeps in C locals is lost. -/
namespace TraceJvm

open Outcome List Bool

/-! ### Calls -/

/-- How a call ends: it returns an object, and it may have caught the exception that was pending
before, or it returns null and leaves an exception. -/
inductive CallAnswer where
  | value (o : ℕ) (catches : Bool)
  | threw (e : ℕ)

structure AwaitedCall where
  polls : ℕ
  answer : CallAnswer

/-- A type of a descriptor: `load_class_of_field_descriptor` and `get_class_mirror`. -/
structure MirrorCalls where
  load : AwaitedCall
  mirror : CallAnswer

/-- What the calls of `resolve_method_type` come to. -/
structure MethodTypeCalls where
  array : CallAnswer
  arguments : List MirrorCalls
  returnType : MirrorCalls
  makeImpl : Option ℕ → List (Option ℕ) → CallAnswer

inductive StaticArgument where
  | primitive (box : CallAnswer)
  | classInfo (resolve mirror : CallAnswer)
  | string (make : CallAnswer)
  | methodType (resolved : Option ℕ) (calls : MethodTypeCalls)
  | methodHandle (resolve : AwaitedCall)

/-- What the calls of `indy_resolve` come to. -/
structure IndyCalls where
  handle : AwaitedCall
  lookup : CallAnswer
  array : CallAnswer
  arguments : List StaticArgument
  name : CallAnswer
  methodType : MethodTypeCalls
  /-- `invokeWithArguments` of the bootstrap method's handle -/
  bootstrap : ℕ → List (Option ℕ) → AwaitedCall

/-! ### The thread -/

inductive JavaHandle where
  | null
  | slot (i : ℕ)

/-- Objects keep their numbers when a collection moves them. -/
structure LinkThread where
  handles : List (Option ℕ)
  currentException : Option ℕ
  /-- The calls of `invokeWithArguments` with the contents of the array -/
  invoked : List (ℕ × List (Option ℕ))
  /-- `ic` of the instruction -/
  ic : Option ℕ
  /-- `resolved_mt` of the entry -/
  resolvedMt : Option ℕ

/-- The ends other than a return: a check has failed, all handles are in use, null is written to, or
a lost C local is used. -/
inductive Crash where
  | aborted
  | exhausted
  | undefined
  deriving DecidableEq

namespace LinkThread

def start (handles : List (Option ℕ)) : LinkThread := ⟨handles, none, [], none, none⟩

def answer (t : LinkThread) : CallAnswer → Option ℕ × LinkThread
  | .value o false => (some o, t)
  | .value o true => (some o, { t with currentException := none })
  | .threw e => (none, { t with currentException := some e })

def makeHandle (t : LinkThread) : Option ℕ → Except Crash (JavaHandle × LinkThread)
  | none => .ok (.null, t)
  | some o =>
    match SlotTable.fill t.handles o with
    | some (handles, i) => .ok (.slot i, { t with handles := handles })
    | none => .error .exhausted

def dropHandle (t : LinkThread) : JavaHandle → LinkThread
  | .null => t
  | .slot i => { t with handles := SlotTable.drop t.handles i }

/-- `obj` of a handle -/
def obj (t : LinkThread) : JavaHandle → Option ℕ
  | .null => none
  | .slot i => t.handles[i]?.join

/-- `ReferenceArrayStore` into the array that a handle holds. -/
def store (t : LinkThread) (array : JavaHandle) (data : List (Option ℕ)) (i : ℕ) (o : Option ℕ) :
    Except Crash (List (Option ℕ)) :=
  match t.obj array with
  | some _ => .ok (data.set i o)
  | none => .error .undefined

end LinkThread

def cLocal {α : Type} (suspended : Bool) (x : α) : Except Crash α :=
  if suspended then .error .undefined else .ok x

def AwaitedCall.suspends (a : AwaitedCall) : Bool := a.polls != 0

/-! ### The functions -/

/-- The loop of `resolve_method_type`, whose index is a C local. The result is `none` if the
function returns null. -/
def storeMirrors (ptypes : JavaHandle) : List MirrorCalls → ℕ → List (Option ℕ) → LinkThread →
    Except Crash (Option (List (Option ℕ)) × Bool × LinkThread)
  | [], _, data, t => .ok (some data, false, t)
  | arg :: args, i, data, t => do
    let (desc, t) := t.answer arg.load.answer
    if desc = none then
      return (none, arg.load.suspends, t)
    let (mirror, t) := t.answer arg.mirror
    let i ← cLocal arg.load.suspends i
    let data ← t.store ptypes data i mirror
    storeMirrors ptypes args (i + 1) data t

/-- `resolve_method_type`: its result, and whether it has suspended its caller. -/
def resolveMethodType (calls : MethodTypeCalls) (t : LinkThread) :
    Except Crash (Option ℕ × Bool × LinkThread) := do
  let (array, t) := t.answer calls.array
  let (ptypes, t) ← t.makeHandle array
  let (data, suspended, t) ← storeMirrors ptypes calls.arguments 0
    (List.replicate calls.arguments.length none) t
  match data with
  | none => return (none, suspended, t)
  | some data =>
    let (desc, t) := t.answer calls.returnType.load.answer
    let suspended := calls.returnType.load.suspends
    if desc = none then
      return (none, suspended, t)
    let (rtype, t) := t.answer calls.returnType.mirror
    let (result, t) := t.answer (calls.makeImpl rtype data)
    if t.currentException.isSome then
      throw .aborted
    return (result, suspended, t.dropHandle ptypes)

def resolveIndyStaticArgument (t : LinkThread) :
    StaticArgument → Except Crash (Option ℕ × Bool × LinkThread)
  | .primitive box => return ((t.answer box).1, false, (t.answer box).2)
  | .classInfo resolve mirror =>
    let (classdesc, t) := t.answer resolve
    if classdesc = none then
      return (none, false, t)
    else
      return ((t.answer mirror).1, false, (t.answer mirror).2)
  | .string make => return ((t.answer make).1, false, (t.answer make).2)
  | .methodType (some mt) _ => return (some mt, false, t)
  | .methodType none calls => resolveMethodType calls t
  | .methodHandle resolve =>
    return ((t.answer resolve.answer).1, resolve.suspends, (t.answer resolve.answer).2)

def storeArguments (array : JavaHandle) : List StaticArgument → ℕ → List (Option ℕ) → LinkThread →
    Except Crash (List (Option ℕ) × Bool × LinkThread)
  | [], _, data, t => .ok (data, false, t)
  | arg :: args, i, data, t => do
    let (o, suspended, t) ← resolveIndyStaticArgument t arg
    let data ← t.store array data (i + 3) o
    let (data, later, t) ← storeArguments array args (i + 1) data t
    return (data, suspended || later, t)

/-- The call of `invokeWithArguments`. -/
def invokeWithArguments (calls : IndyCalls) (t : LinkThread) (bh : ℕ) (data : List (Option ℕ)) :
    ℤ × LinkThread :=
  let t := { t with invoked := t.invoked ++ [(bh, data)] }
  let (res, t) := t.answer (calls.bootstrap bh data).answer
  if t.currentException.isSome then (-1, t) else (0, { t with ic := res })

/-- The end of `indy_resolve`, for which `lookup_handle` and `name` may be lost. -/
def storeAndInvoke (calls : IndyCalls) (bootstrapHandle invokeArray : JavaHandle)
    (lookupHandle nameHandle : Except Crash JavaHandle) (data : List (Option ℕ)) (t : LinkThread) :
    Except Crash (ℤ × LinkThread) := do
  let lookupHandle ← lookupHandle
  let data ← t.store invokeArray data 0 (t.obj lookupHandle)
  let t := t.dropHandle lookupHandle
  let nameHandle ← nameHandle
  let data ← t.store invokeArray data 1 (t.obj nameHandle)
  let t := t.dropHandle nameHandle
  let data ← t.store invokeArray data 2 t.resolvedMt
  match t.obj bootstrapHandle with
  | none => throw .undefined
  | some bh =>
    return invokeWithArguments calls ((t.dropHandle bootstrapHandle).dropHandle invokeArray) bh data

def indyResolve (calls : IndyCalls) (t : LinkThread) : Except Crash (ℤ × LinkThread) := do
  let (mh, t) := t.answer calls.handle.answer
  if t.currentException.isSome then
    return (1, t)
  let (bootstrapHandle, t) ← t.makeHandle mh
  let (lookup, t) := t.answer calls.lookup
  let (lookupHandle, t) ← t.makeHandle lookup
  let (array, t) := t.answer calls.array
  let (invokeArray, t) ← t.makeHandle array
  let (data, suspended, t) ← storeArguments invokeArray calls.arguments 0
    (List.replicate (calls.arguments.length + 3) none) t
  let (name, t) := t.answer calls.name
  let (nameHandle, t) ← t.makeHandle name
  let (mt, suspended', t) ← resolveMethodType calls.methodType t
  storeAndInvoke calls bootstrapHandle invokeArray
    (cLocal (suspended || suspended') lookupHandle) (cLocal suspended' nameHandle) data
    { t with resolvedMt := mt }

/-! ### What linkage is to do -/

def CallAnswer.result : CallAnswer → Except ℕ ℕ
  | .value o _ => .ok o
  | .threw e => .error e

def MirrorCalls.result (calls : MirrorCalls) : Except ℕ ℕ := do
  let _ ← calls.load.answer.result
  calls.mirror.result

def MethodTypeCalls.result (calls : MethodTypeCalls) : Except ℕ ℕ := do
  let _ ← calls.array.result
  let ptypes ← calls.arguments.mapM MirrorCalls.result
  let rtype ← calls.returnType.result
  (calls.makeImpl (some rtype) (ptypes.map some)).result

def StaticArgument.result : StaticArgument → Except ℕ ℕ
  | .primitive box => box.result
  | .classInfo resolve mirror => do
    let _ ← resolve.result
    mirror.result
  | .string make => make.result
  | .methodType (some mt) _ => .ok mt
  | .methodType none calls => calls.result
  | .methodHandle resolve => resolve.answer.result

/-- The handle of the bootstrap method and the arguments that it is to get, or the exception of the
first call that fails. -/
def IndyCalls.result (calls : IndyCalls) : Except ℕ (ℕ × List ℕ) := do
  let bh ← calls.handle.answer.result
  let lookup ← calls.lookup.result
  let _ ← calls.array.result
  let arguments ← calls.arguments.mapM StaticArgument.result
  let name ← calls.name.result
  let mt ← calls.methodType.result
  return (bh, lookup :: name :: mt :: arguments)

/-- Where a part cannot be resolved, linkage fails with its exception, without a call of the
bootstrap method. Else the bootstrap method is called once, and linkage ends as that call does. In
both cases no handle is left. -/
def LinkageRight (calls : IndyCalls) (handles : List (Option ℕ)) : Prop :=
  match calls.result with
  | .error e => ∃ r t, indyResolve calls (.start handles) = .ok (r, t) ∧ r ≠ 0 ∧
      t.currentException = some e ∧ t.invoked = [] ∧ t.handles = handles
  | .ok (bh, args) => ∃ r t, indyResolve calls (.start handles) = .ok (r, t) ∧
      t.invoked = [(bh, args.map some)] ∧ t.handles = handles ∧
      match (calls.bootstrap bh (args.map some)).answer with
      | .value o _ => r = 0 ∧ t.currentException = none ∧ t.ic = some o
      | .threw e => r ≠ 0 ∧ t.currentException = some e

def MethodTypeCalls.Ready (calls : MethodTypeCalls) : Prop :=
  (∀ arg ∈ calls.arguments, arg.load.polls = 0) ∧ calls.returnType.load.polls = 0

def StaticArgument.Ready : StaticArgument → Prop
  | .methodType none calls => calls.Ready
  | .methodHandle resolve => resolve.polls = 0
  | _ => True

/-- The bootstrap method's handle cannot be resolved, or all parts can, and neither the static
arguments nor the method type suspend the function, and five handles are free. -/
def LinkageOk (calls : IndyCalls) (handles : List (Option ℕ)) : Prop :=
  (∃ e, calls.handle.answer = .threw e) ∨
    (∃ x, calls.result = .ok x) ∧ (∀ arg ∈ calls.arguments, arg.Ready) ∧
      calls.methodType.Ready ∧ 5 ≤ SlotTable.free handles

/-! ### Calls that succeed -/

namespace LinkThread

variable {t u : LinkThread}

variable {o : ℕ}

theorem answer_of_result (h : t.currentException = none) {a : CallAnswer}
    (ha : a.result = .ok o) : t.answer a = (some o, t) := by
  cases a with
  | value o' catches =>
    cases ha
    cases catches with
    | false => rfl
    | true =>
      show (some o, { t with currentException := none }) = (some o, t)
      rw [← h]
  | threw e => cases ha

theorem makeHandle_eq {handle : JavaHandle} (h : t.makeHandle (some o) = .ok (handle, u)) :
    ∃ handles i, SlotTable.fill t.handles o = some (handles, i) ∧ handle = .slot i ∧
      u = { t with handles := handles } := by
  unfold makeHandle at h
  dsimp only at h
  split at h
  · rename_i handles i hfill
    cases h
    exact ⟨handles, i, hfill, rfl, rfl⟩
  · cases h

variable {handles : List (Option ℕ)}

variable {i : ℕ}

theorem makeHandle_of_fill (h : SlotTable.fill t.handles o = some (handles, i)) :
    t.makeHandle (some o) = .ok (.slot i, { t with handles := handles }) := by
  unfold makeHandle
  dsimp only
  rw [h]

theorem obj_slot (h : t.handles[i]? = some (some o)) : t.obj (.slot i) = some o := by
  show t.handles[i]?.join = some o
  rw [h]
  rfl

theorem obj_of_fill (h : SlotTable.fill t.handles o = some (handles, i)) :
    { t with handles := handles }.obj (.slot i) = some o :=
  obj_slot (SlotTable.fill_self h)

theorem drop_of_fill (h : SlotTable.fill t.handles o = some (handles, i)) :
    { t with handles := handles }.dropHandle (.slot i) = t := by
  show { t with handles := SlotTable.drop handles i } = t
  rw [SlotTable.drop_fill h]

theorem store_of_obj {array : JavaHandle} {a : ℕ} (h : t.obj array = some a)
    (data : List (Option ℕ)) (i : ℕ) (o : Option ℕ) :
    t.store array data i o = .ok (data.set i o) := by
  unfold store
  rw [h]

theorem store_eq {array : JavaHandle} {data data' : List (Option ℕ)} {o : Option ℕ}
    (h : t.store array data i o = .ok data') : data' = data.set i o := by
  unfold store at h
  split at h
  · cases h
    rfl
  · cases h

end LinkThread

theorem cLocal_eq {α : Type} {suspended : Bool} {x y : α} (h : cLocal suspended x = .ok y) :
    suspended = false ∧ y = x := by
  cases suspended with
  | false =>
    cases h
    exact ⟨rfl, rfl⟩
  | true => cases h

theorem AwaitedCall.suspends_eq_false {a : AwaitedCall} : a.suspends = false ↔ a.polls = 0 := by
  simp [suspends]

theorem set_replicate {i : ℕ} (done : List (Option ℕ)) (hi : done.length = i) (n : ℕ)
    (o : Option ℕ) :
    (done ++ List.replicate (n + 1) none).set i o = done ++ [o] ++ List.replicate n none := by
  subst hi
  rw [replicate_succ, set_append_right _ _ (Nat.le_refl _), Nat.sub_self,
    set_cons_zero, append_assoc, singleton_append]

section Success

variable {t u : LinkThread}

variable {d : List (Option ℕ)} {suspended : Bool}

variable {i : ℕ} {ptypes : JavaHandle}

theorem storeMirrors_eq (hcalm : t.currentException = none)
    {args : List MirrorCalls} {mirrors : List ℕ}
    (hargs : args.mapM MirrorCalls.result = .ok mirrors)
    (hi : d.length = i) {r : Option (List (Option ℕ))}
    (h : storeMirrors ptypes args i (d ++ List.replicate args.length none) t =
      .ok (r, suspended, u)) : r = some (d ++ mirrors.map some) ∧ suspended = false ∧ u = t ∧
      ∀ arg ∈ args, arg.load.polls = 0 := by
  induction args generalizing d i mirrors with
  | nil =>
    cases hargs
    cases h
    exact ⟨rfl, rfl, rfl, fun _ harg => absurd harg not_mem_nil⟩
  | cons arg args ih =>
    obtain ⟨mirror, mirrors, hmirror, hmirrors, rfl⟩ := mapM_cons_ok hargs
    obtain ⟨desc, hdesc, hmirror⟩ := bind_eq_ok.mp hmirror
    unfold storeMirrors at h
    simp only [LinkThread.answer_of_result hcalm hdesc, LinkThread.answer_of_result hcalm hmirror,
      reduceCtorEq, if_false] at h
    obtain ⟨j, hj, hstore⟩ := bind_eq_ok.mp h
    obtain ⟨hready, hindex⟩ := cLocal_eq hj
    obtain ⟨data, hdata, hloop⟩ := bind_eq_ok.mp hstore
    have hlength : (d ++ [some mirror]).length = i + 1 := by
      rw [length_append, hi]
      rfl
    rw [LinkThread.store_eq hdata, hindex, length_cons, set_replicate d hi] at hloop
    obtain ⟨hr, hsuspended, hu, hrest⟩ := ih hmirrors hlength hloop
    refine ⟨?_, hsuspended, hu, ?_⟩
    · rw [hr, append_assoc]
      rfl
    · exact forall_mem_cons.mpr ⟨AwaitedCall.suspends_eq_false.mp hready, hrest⟩

theorem storeMirrors_ready (hcalm : t.currentException = none) {p : ℕ}
    (hptypes : t.obj ptypes = some p) {args : List MirrorCalls} {mirrors : List ℕ}
    (hargs : args.mapM MirrorCalls.result = .ok mirrors) (hready : ∀ arg ∈ args, arg.load.polls = 0)
    (hi : d.length = i) : storeMirrors ptypes args i (d ++ List.replicate args.length none) t =
      .ok (some (d ++ mirrors.map some), false, t) := by
  induction args generalizing d i mirrors with
  | nil =>
    cases hargs
    rfl
  | cons arg args ih =>
    obtain ⟨mirror, mirrors, hmirror, hmirrors, rfl⟩ := mapM_cons_ok hargs
    obtain ⟨desc, hdesc, hmirror⟩ := bind_eq_ok.mp hmirror
    obtain ⟨harg, hrest⟩ := forall_mem_cons.mp hready
    have hlength : (d ++ [some mirror]).length = i + 1 := by
      rw [length_append, hi]
      rfl
    have htail := ih hmirrors hrest hlength
    unfold storeMirrors
    simp only [LinkThread.answer_of_result hcalm hdesc, LinkThread.answer_of_result hcalm hmirror,
      reduceCtorEq, if_false, AwaitedCall.suspends_eq_false.mpr harg]
    show (t.store ptypes _ i (some mirror) >>= _) = _
    rw [LinkThread.store_of_obj hptypes, length_cons, set_replicate d hi]
    show storeMirrors ptypes args (i + 1) _ t = _
    rw [htail, append_assoc]
    rfl

variable {calls : MethodTypeCalls}

variable {mt : ℕ}

theorem MethodTypeCalls.result_ok (h : calls.result = .ok mt) :
    ∃ array ptypes rtype desc, calls.array.result = .ok array ∧
      calls.arguments.mapM MirrorCalls.result = .ok ptypes ∧
      calls.returnType.load.answer.result = .ok desc ∧ calls.returnType.mirror.result = .ok rtype ∧
      (calls.makeImpl (some rtype) (ptypes.map some)).result = .ok mt := by
  obtain ⟨array, harray, h⟩ := bind_eq_ok.mp h
  obtain ⟨ptypes, hptypes, h⟩ := bind_eq_ok.mp h
  obtain ⟨rtype, hreturn, hmake⟩ := bind_eq_ok.mp h
  obtain ⟨desc, hdesc, hrtype⟩ := bind_eq_ok.mp hreturn
  exact ⟨array, ptypes, rtype, desc, harray, hptypes, hdesc, hrtype, hmake⟩

theorem resolveMethodType_eq (hcalm : t.currentException = none)
    (hcalls : calls.result = .ok mt) {r : Option ℕ}
    (h : resolveMethodType calls t = .ok (r, suspended, u)) :
    r = some mt ∧ u = t ∧ 0 < SlotTable.free t.handles ∧ (suspended = false → calls.Ready) := by
  obtain ⟨array, ptypes, rtype, desc, harray, hptypes, hdesc, hrtype, hmake⟩ :=
    MethodTypeCalls.result_ok hcalls
  unfold resolveMethodType at h
  simp only [LinkThread.answer_of_result hcalm harray] at h
  obtain ⟨⟨handle, t'⟩, hhandle, hrest⟩ := bind_eq_ok.mp h
  obtain ⟨handles, i, hfill, rfl, ht'⟩ := LinkThread.makeHandle_eq hhandle
  have hcalm' : t'.currentException = none := by
    rw [ht']
    exact hcalm
  obtain ⟨⟨data, suspended', t''⟩, hloop, hend⟩ := bind_eq_ok.mp hrest
  obtain ⟨rfl, rfl, rfl, hready⟩ := storeMirrors_eq (d := []) hcalm' hptypes rfl hloop
  simp only [LinkThread.answer_of_result hcalm' hdesc, LinkThread.answer_of_result hcalm' hrtype,
    nil_append, LinkThread.answer_of_result hcalm' hmake, hcalm', reduceCtorEq, if_false,
    Option.isSome_none, false_eq_true] at hend
  cases hend
  refine ⟨rfl, ?_, ?_, fun hsuspended => ⟨hready, AwaitedCall.suspends_eq_false.mp hsuspended⟩⟩
  · rw [ht']
    exact LinkThread.drop_of_fill hfill
  · rw [SlotTable.free_fill hfill]
    exact Nat.succ_pos _

theorem resolveMethodType_ready (hcalm : t.currentException = none)
    (hcalls : calls.result = .ok mt) (hready : calls.Ready) (hfree : 0 < SlotTable.free t.handles) :
    resolveMethodType calls t = .ok (some mt, false, t) := by
  obtain ⟨array, ptypes, rtype, desc, harray, hptypes, hdesc, hrtype, hmake⟩ :=
    MethodTypeCalls.result_ok hcalls
  obtain ⟨handles, i, hfill⟩ := SlotTable.fill_of_free hfree array
  obtain ⟨t', ht'⟩ : ∃ t', t' = { t with handles := handles } := ⟨_, rfl⟩
  have hcalm' : t'.currentException = none := by
    rw [ht']
    exact hcalm
  have hobj : t'.obj (.slot i) = some array := by
    rw [ht']
    exact LinkThread.obj_of_fill hfill
  have hloop : storeMirrors (.slot i) calls.arguments 0
      (List.replicate calls.arguments.length none) t' = .ok (some (ptypes.map some), false, t') :=
    storeMirrors_ready (d := []) hcalm' hobj hptypes hready.1 rfl
  unfold resolveMethodType
  simp only [LinkThread.answer_of_result hcalm harray, LinkThread.makeHandle_of_fill hfill, ← ht']
  simp only [ok_bind, hloop, LinkThread.answer_of_result hcalm' hdesc,
    LinkThread.answer_of_result hcalm' hrtype, LinkThread.answer_of_result hcalm' hmake, hcalm',
    reduceCtorEq, if_false, Option.isSome_none, false_eq_true,
    AwaitedCall.suspends_eq_false.mpr hready.2]
  rw [ht', LinkThread.drop_of_fill hfill]
  rfl

variable {arg : StaticArgument}

theorem resolveArgument_eq (hcalm : t.currentException = none) {o : ℕ}
    (harg : arg.result = .ok o) {r : Option ℕ}
    (h : resolveIndyStaticArgument t arg = .ok (r, suspended, u)) :
    r = some o ∧ u = t ∧ (suspended = false → arg.Ready) := by
  cases arg with
  | primitive box | string make =>
    cases h
    rw [LinkThread.answer_of_result hcalm harg]
    exact ⟨rfl, rfl, fun _ => trivial⟩
  | classInfo resolve mirror =>
    obtain ⟨desc, hdesc, hmirror⟩ := bind_eq_ok.mp harg
    simp only [resolveIndyStaticArgument, LinkThread.answer_of_result hcalm hdesc,
      LinkThread.answer_of_result hcalm hmirror, reduceCtorEq, if_false] at h
    cases h
    exact ⟨rfl, rfl, fun _ => trivial⟩
  | methodType resolved calls =>
    cases resolved with
    | some mt =>
      cases harg
      cases h
      exact ⟨rfl, rfl, fun _ => trivial⟩
    | none =>
      obtain ⟨hr, hu, -, hready⟩ := resolveMethodType_eq hcalm harg h
      exact ⟨hr, hu, hready⟩
  | methodHandle resolve =>
    cases h
    rw [LinkThread.answer_of_result hcalm harg]
    exact ⟨rfl, rfl, AwaitedCall.suspends_eq_false.mp⟩

theorem resolveArgument_ready (hcalm : t.currentException = none) {o : ℕ}
    (harg : arg.result = .ok o) (hready : arg.Ready) (hfree : 0 < SlotTable.free t.handles) :
    resolveIndyStaticArgument t arg = .ok (some o, false, t) := by
  cases arg with
  | primitive box | string make =>
    simp only [resolveIndyStaticArgument, LinkThread.answer_of_result hcalm harg]
    rfl
  | classInfo resolve mirror =>
    obtain ⟨desc, hdesc, hmirror⟩ := bind_eq_ok.mp harg
    simp only [resolveIndyStaticArgument, LinkThread.answer_of_result hcalm hdesc,
      LinkThread.answer_of_result hcalm hmirror, reduceCtorEq, if_false]
    rfl
  | methodType resolved calls =>
    cases resolved with
    | some mt =>
      cases harg
      rfl
    | none => exact resolveMethodType_ready hcalm harg hready hfree
  | methodHandle resolve =>
    simp only [resolveIndyStaticArgument, LinkThread.answer_of_result hcalm harg,
      AwaitedCall.suspends_eq_false.mpr hready]
    rfl

variable {args : List StaticArgument}

/-- Where the loop ends, the array has the arguments. -/
theorem storeArguments_eq (hcalm : t.currentException = none) {array : JavaHandle}
    {os : List ℕ} (hargs : args.mapM StaticArgument.result = .ok os) (hi : d.length = i + 3)
    {r : List (Option ℕ)}
    (h : storeArguments array args i (d ++ List.replicate args.length none) t =
      .ok (r, suspended, u)) :
    r = d ++ os.map some ∧ u = t ∧ (suspended = false → ∀ arg ∈ args, arg.Ready) := by
  induction args generalizing d i os r suspended with
  | nil =>
    cases hargs
    cases h
    exact ⟨rfl, rfl, fun _ _ harg => absurd harg not_mem_nil⟩
  | cons arg args ih =>
    obtain ⟨o, os, ho, hos, rfl⟩ := mapM_cons_ok hargs
    unfold storeArguments at h
    obtain ⟨⟨ro, first, t'⟩, harg, hstore⟩ := bind_eq_ok.mp h
    obtain ⟨rfl, rfl, hready⟩ := resolveArgument_eq hcalm ho harg
    obtain ⟨data, hdata, hloop⟩ := bind_eq_ok.mp hstore
    obtain ⟨⟨rest, later, t''⟩, hrest, hend⟩ := bind_eq_ok.mp hloop
    cases hend
    have hlength : (d ++ [some o]).length = i + 1 + 3 := by
      rw [length_append, hi]
      rfl
    rw [LinkThread.store_eq hdata, length_cons, set_replicate d hi] at hrest
    obtain ⟨hr, hu, hlater⟩ := ih hos hlength hrest
    refine ⟨?_, hu, ?_⟩
    · rw [hr, append_assoc]
      rfl
    · intro hsuspended
      obtain ⟨hfirst, hnone⟩ := or_eq_false_iff.mp hsuspended
      exact forall_mem_cons.mpr ⟨hready hfirst, hlater hnone⟩

theorem storeArguments_ready (hcalm : t.currentException = none) {array : JavaHandle} {a : ℕ}
    (harray : t.obj array = some a) (hfree : 0 < SlotTable.free t.handles)
    {os : List ℕ} (hargs : args.mapM StaticArgument.result = .ok os)
    (hready : ∀ arg ∈ args, arg.Ready) (hi : d.length = i + 3) :
    storeArguments array args i (d ++ List.replicate args.length none) t =
      .ok (d ++ os.map some, false, t) := by
  induction args generalizing d i os with
  | nil =>
    cases hargs
    rfl
  | cons arg args ih =>
    obtain ⟨o, os, ho, hos, rfl⟩ := mapM_cons_ok hargs
    obtain ⟨harg, hrest⟩ := forall_mem_cons.mp hready
    have hlength : (d ++ [some o]).length = i + 1 + 3 := by
      rw [length_append, hi]
      rfl
    have htail := ih hos hrest hlength
    unfold storeArguments
    simp only [resolveArgument_ready hcalm ho harg hfree, ok_bind,
      LinkThread.store_of_obj harray, length_cons, set_replicate d hi, htail]
    rw [append_assoc]
    rfl

end Success

theorem invokeWithArguments_called (calls : IndyCalls) (t : LinkThread) (bh : ℕ)
    (data : List (Option ℕ)) :
    (invokeWithArguments calls t bh data).2.invoked = t.invoked ++ [(bh, data)] ∧
      (invokeWithArguments calls t bh data).2.handles = t.handles := by
  unfold invokeWithArguments
  dsimp only
  rcases (calls.bootstrap bh data).answer with ⟨o, catches⟩ | e
  · cases catches with
    | false => cases t.currentException <;> exact ⟨rfl, rfl⟩
    | true => exact ⟨rfl, rfl⟩
  · exact ⟨rfl, rfl⟩

theorem invokeWithArguments_end (calls : IndyCalls) {t : LinkThread} (bh : ℕ)
    (data : List (Option ℕ)) (hcalm : t.currentException = none) :
    match (calls.bootstrap bh data).answer with
    | .value o _ => (invokeWithArguments calls t bh data).1 = 0 ∧
        (invokeWithArguments calls t bh data).2.currentException = none ∧
        (invokeWithArguments calls t bh data).2.ic = some o
    | .threw e => (invokeWithArguments calls t bh data).1 ≠ 0 ∧
        (invokeWithArguments calls t bh data).2.currentException = some e := by
  unfold invokeWithArguments
  dsimp only
  cases (calls.bootstrap bh data).answer with
  | value o catches => cases catches <;> simp [LinkThread.answer, hcalm]
  | threw e => simp [LinkThread.answer]

variable {calls : IndyCalls}

theorem storeAndInvoke_invoked {bootstrapHandle invokeArray : JavaHandle}
    {lookupHandle nameHandle : Except Crash JavaHandle} {data : List (Option ℕ)} {t : LinkThread}
    {r : ℤ} {u : LinkThread}
    (h : storeAndInvoke calls bootstrapHandle invokeArray lookupHandle nameHandle data t =
      .ok (r, u)) : u.invoked ≠ [] := by
  iterate 4 obtain ⟨_, -, h⟩ := bind_eq_ok.mp h
  obtain ⟨data, -, h⟩ := bind_eq_ok.mp h
  split at h
  · cases h
  · rename_i bh _
    have hu := congrArg LinkThread.invoked (congrArg Prod.snd (Except.ok.inj h))
    rw [(invokeWithArguments_called calls _ bh data).1] at hu
    rw [← hu]
    exact append_ne_nil_of_right_ne_nil _ (cons_ne_nil _ _)

variable {handles : List (Option ℕ)}

theorem invoked_of_returned {mh : ℕ}
    {catches : Bool} (hhandle : calls.handle.answer = .value mh catches) {r : ℤ} {u : LinkThread}
    (h : indyResolve calls (.start handles) = .ok (r, u)) : u.invoked ≠ [] := by
  have hcalm : (LinkThread.start handles).currentException = none := rfl
  have hmh : calls.handle.answer.result = .ok mh := by
    rw [hhandle]
    rfl
  unfold indyResolve at h
  simp only [LinkThread.answer_of_result hcalm hmh, hcalm, Option.isSome_none, false_eq_true,
    if_false] at h
  iterate 6 obtain ⟨_, -, h⟩ := bind_eq_ok.mp h
  exact storeAndInvoke_invoked h

/-- The handles are used and dropped in any slots that differ. -/
theorem storeAndInvoke_ready (calls : IndyCalls) {m : Option ℕ}
    {bh lookup array name b l a n : ℕ} (hb : handles[b]? = some (some bh))
    (hl : handles[l]? = some (some lookup)) (ha : handles[a]? = some (some array))
    (hn : handles[n]? = some (some name)) (hlb : l ≠ b) (hnb : n ≠ b) (hla : l ≠ a) (hna : n ≠ a)
    (hln : l ≠ n) (arguments : List (Option ℕ)) :
    storeAndInvoke calls (.slot b) (.slot a) (.ok (.slot l)) (.ok (.slot n))
        (none :: none :: none :: arguments) { LinkThread.start handles with resolvedMt := m } =
      .ok (invokeWithArguments calls
        { LinkThread.start (SlotTable.drop (SlotTable.drop (SlotTable.drop
          (SlotTable.drop handles l) n) b) a) with resolvedMt := m } bh
        (some lookup :: some name :: m :: arguments)) := by
  let linked (hs : List (Option ℕ)) : LinkThread := { LinkThread.start hs with resolvedMt := m }
  have hlookup : (linked handles).obj (.slot l) = some lookup := LinkThread.obj_slot hl
  have harray : (linked handles).obj (.slot a) = some array := LinkThread.obj_slot ha
  have hname : (linked (SlotTable.drop handles l)).obj (.slot n) = some name :=
    LinkThread.obj_slot ((SlotTable.drop_of_ne hln).trans hn)
  have harray' : (linked (SlotTable.drop handles l)).obj (.slot a) = some array :=
    LinkThread.obj_slot ((SlotTable.drop_of_ne hla).trans ha)
  have harray'' : (linked (SlotTable.drop (SlotTable.drop handles l) n)).obj (.slot a) =
      some array :=
    LinkThread.obj_slot ((SlotTable.drop_of_ne hna).trans ((SlotTable.drop_of_ne hla).trans ha))
  have hhandle : (linked (SlotTable.drop (SlotTable.drop handles l) n)).obj (.slot b) = some bh :=
    LinkThread.obj_slot ((SlotTable.drop_of_ne hnb).trans ((SlotTable.drop_of_ne hlb).trans hb))
  show ((linked handles).store (.slot a) _ 0 ((linked handles).obj (.slot l)) >>= _) = _
  rw [hlookup, LinkThread.store_of_obj harray, ok_bind]
  show ((linked (SlotTable.drop handles l)).store (.slot a) _ 1
    ((linked (SlotTable.drop handles l)).obj (.slot n)) >>= _) = _
  rw [hname, LinkThread.store_of_obj harray', ok_bind]
  show ((linked (SlotTable.drop (SlotTable.drop handles l) n)).store (.slot a) _ 2 m >>= _) = _
  rw [LinkThread.store_of_obj harray'', ok_bind]
  show (match (linked (SlotTable.drop (SlotTable.drop handles l) n)).obj (.slot b) with
    | none => Except.error Crash.undefined
    | some bh => _) = _
  rw [hhandle]
  rfl

variable {x : ℕ × List ℕ}

theorem IndyCalls.result_ok (h : calls.result = .ok x) :
    ∃ lookup array arguments name mt, calls.handle.answer.result = .ok x.1 ∧
      calls.lookup.result = .ok lookup ∧ calls.array.result = .ok array ∧
      calls.arguments.mapM StaticArgument.result = .ok arguments ∧ calls.name.result = .ok name ∧
      calls.methodType.result = .ok mt ∧ x.2 = lookup :: name :: mt :: arguments := by
  obtain ⟨bh, hbh, h⟩ := bind_eq_ok.mp h
  obtain ⟨lookup, hlookup, h⟩ := bind_eq_ok.mp h
  obtain ⟨array, harray, h⟩ := bind_eq_ok.mp h
  obtain ⟨arguments, harguments, h⟩ := bind_eq_ok.mp h
  obtain ⟨name, hname, h⟩ := bind_eq_ok.mp h
  obtain ⟨mt, hmt, h⟩ := bind_eq_ok.mp h
  cases h
  exact ⟨lookup, array, arguments, name, mt, hbh, hlookup, harray, harguments, hname, hmt, rfl⟩

/-- Where all parts can be resolved, a return means that nothing has suspended the function and that
there were handles enough. -/
theorem indyResolve_eq (hcalls : calls.result = .ok x) {r : ℤ} {u : LinkThread}
    (h : indyResolve calls (.start handles) = .ok (r, u)) :
    (∀ arg ∈ calls.arguments, arg.Ready) ∧ calls.methodType.Ready ∧ 5 ≤ SlotTable.free handles := by
  obtain ⟨lookup, array, arguments, name, mt, hbh, hlookup, harray, harguments, hname, hmt, -⟩ :=
    IndyCalls.result_ok hcalls
  have hcalm : (LinkThread.start handles).currentException = none := rfl
  unfold indyResolve at h
  simp only [LinkThread.answer_of_result hcalm hbh, hcalm, Option.isSome_none, false_eq_true,
    if_false] at h
  obtain ⟨⟨_, t₁⟩, h₁, h⟩ := bind_eq_ok.mp h
  obtain ⟨handles₁, i₁, hfill₁, rfl, ht₁⟩ := LinkThread.makeHandle_eq h₁
  have hcalm₁ : t₁.currentException = none := by
    rw [ht₁]
    exact hcalm
  simp only [LinkThread.answer_of_result hcalm₁ hlookup] at h
  obtain ⟨⟨_, t₂⟩, h₂, h⟩ := bind_eq_ok.mp h
  obtain ⟨handles₂, i₂, hfill₂, rfl, ht₂⟩ := LinkThread.makeHandle_eq h₂
  have hcalm₂ : t₂.currentException = none := by
    rw [ht₂]
    exact hcalm₁
  simp only [LinkThread.answer_of_result hcalm₂ harray] at h
  obtain ⟨⟨_, t₃⟩, h₃, h⟩ := bind_eq_ok.mp h
  obtain ⟨handles₃, i₃, hfill₃, rfl, ht₃⟩ := LinkThread.makeHandle_eq h₃
  have hcalm₃ : t₃.currentException = none := by
    rw [ht₃]
    exact hcalm₂
  obtain ⟨⟨data, suspended, t₄⟩, hloop, h⟩ := bind_eq_ok.mp h
  rw [Nat.add_comm, ← replicate_append_replicate] at hloop
  obtain ⟨-, rfl, hready⟩ := storeArguments_eq hcalm₃ harguments rfl hloop
  simp only [LinkThread.answer_of_result hcalm₃ hname] at h
  obtain ⟨⟨_, t₅⟩, h₅, h⟩ := bind_eq_ok.mp h
  obtain ⟨handles₅, i₅, hfill₅, rfl, ht₅⟩ := LinkThread.makeHandle_eq h₅
  have hcalm₅ : t₅.currentException = none := by
    rw [ht₅]
    exact hcalm₃
  obtain ⟨⟨rmt, suspended', t₆⟩, htype, h⟩ := bind_eq_ok.mp h
  obtain ⟨-, rfl, hfree, htypeReady⟩ := resolveMethodType_eq hcalm₅ hmt htype
  obtain ⟨_, hlocal, -⟩ := bind_eq_ok.mp (show (cLocal _ _ >>= _) = _ from h)
  obtain ⟨hnone, -⟩ := cLocal_eq hlocal
  obtain ⟨hargs, htypes⟩ := or_eq_false_iff.mp hnone
  refine ⟨hready hargs, htypeReady htypes, ?_⟩
  have hfree₁ := SlotTable.free_fill hfill₁
  have hfree₂ := SlotTable.free_fill hfill₂
  have hfree₃ := SlotTable.free_fill hfill₃
  have hfree₅ := SlotTable.free_fill hfill₅
  rw [ht₁] at hfree₂
  rw [ht₂] at hfree₃
  rw [ht₃] at hfree₅
  rw [ht₅] at hfree
  dsimp only [LinkThread.start] at hfree₁ hfree₂ hfree₃ hfree₅ hfree
  omega

/-- Where all parts can be resolved without a suspension and there are handles enough, the bootstrap
method is called, and no handle is left. -/
theorem indyResolve_ready {bh : ℕ} {args : List ℕ} (hcalls : calls.result = .ok (bh, args))
    (hready : ∀ arg ∈ calls.arguments, arg.Ready) (htypeReady : calls.methodType.Ready)
    (hfree : 5 ≤ SlotTable.free handles) :
    ∃ mt, indyResolve calls (.start handles) =
      .ok (invokeWithArguments calls { LinkThread.start handles with resolvedMt := mt } bh
        (args.map some)) := by
  obtain ⟨lookup, array, arguments, name, mt, hmh, hlookup, harray, harguments, hname, hmt, rfl⟩ :=
    IndyCalls.result_ok hcalls
  obtain ⟨handles₁, i₁, hfill₁⟩ := SlotTable.fill_of_free (show 0 < SlotTable.free handles by omega)
    bh
  have hfree₁ := SlotTable.free_fill hfill₁
  obtain ⟨handles₂, i₂, hfill₂⟩ :=
    SlotTable.fill_of_free (show 0 < SlotTable.free handles₁ by omega) lookup
  have hfree₂ := SlotTable.free_fill hfill₂
  obtain ⟨handles₃, i₃, hfill₃⟩ :=
    SlotTable.fill_of_free (show 0 < SlotTable.free handles₂ by omega) array
  have hfree₃ := SlotTable.free_fill hfill₃
  obtain ⟨handles₄, i₄, hfill₄⟩ :=
    SlotTable.fill_of_free (show 0 < SlotTable.free handles₃ by omega) name
  have hfree₄ := SlotTable.free_fill hfill₄
  have hcalm (hs : List (Option ℕ)) : (LinkThread.start hs).currentException = none := rfl
  have harraySlot : (LinkThread.start handles₃).obj (.slot i₃) = some array :=
    LinkThread.obj_slot (SlotTable.fill_self hfill₃)
  have hloop : storeArguments (.slot i₃) calls.arguments 0
      (List.replicate (calls.arguments.length + 3) none) (.start handles₃) =
      .ok ([none, none, none] ++ arguments.map some, false, .start handles₃) := by
    rw [Nat.add_comm, ← replicate_append_replicate]
    apply storeArguments_ready (hcalm _) harraySlot _ harguments hready rfl
    show 0 < SlotTable.free handles₃
    omega
  have htype : resolveMethodType calls.methodType (.start handles₄) =
      .ok (some mt, false, .start handles₄) := by
    apply resolveMethodType_ready (hcalm _) hmt htypeReady
    show 0 < SlotTable.free handles₄
    omega
  have hmake₁ : (LinkThread.start handles).makeHandle (some bh) =
      .ok (.slot i₁, .start handles₁) := LinkThread.makeHandle_of_fill hfill₁
  have hmake₂ : (LinkThread.start handles₁).makeHandle (some lookup) =
      .ok (.slot i₂, .start handles₂) := LinkThread.makeHandle_of_fill hfill₂
  have hmake₃ : (LinkThread.start handles₂).makeHandle (some array) =
      .ok (.slot i₃, .start handles₃) := LinkThread.makeHandle_of_fill hfill₃
  have hmake₄ : (LinkThread.start handles₃).makeHandle (some name) =
      .ok (.slot i₄, .start handles₄) := LinkThread.makeHandle_of_fill hfill₄
  obtain ⟨hne₄₃, h₃⟩ := SlotTable.fill_occupied hfill₄ (SlotTable.fill_self hfill₃)
  obtain ⟨hne₃₂, h₂⟩ := SlotTable.fill_occupied hfill₃ (SlotTable.fill_self hfill₂)
  obtain ⟨hne₄₂, h₂⟩ := SlotTable.fill_occupied hfill₄ h₂
  obtain ⟨hne₂₁, h₁⟩ := SlotTable.fill_occupied hfill₂ (SlotTable.fill_self hfill₁)
  obtain ⟨-, h₁⟩ := SlotTable.fill_occupied hfill₃ h₁
  obtain ⟨hne₄₁, h₁⟩ := SlotTable.fill_occupied hfill₄ h₁
  have hend := storeAndInvoke_ready calls (m := some mt) h₁ h₂ h₃ (SlotTable.fill_self hfill₄)
    hne₂₁ hne₄₁ (Ne.symm hne₃₂) hne₄₃ (Ne.symm hne₄₂) (arguments.map some)
  rw [SlotTable.drop_comm handles₄, SlotTable.drop_fill hfill₄, SlotTable.drop_comm _ i₁,
    SlotTable.drop_comm handles₃, SlotTable.drop_fill hfill₃, SlotTable.drop_fill hfill₂,
    SlotTable.drop_fill hfill₁] at hend
  refine ⟨some mt, ?_⟩
  unfold indyResolve
  simp only [LinkThread.answer_of_result (hcalm _) hmh, hcalm, Option.isSome_none,
    false_eq_true, if_false, hmake₁, ok_bind, LinkThread.answer_of_result (hcalm _) hlookup,
    hmake₂, LinkThread.answer_of_result (hcalm _) harray, hmake₃, hloop,
    LinkThread.answer_of_result (hcalm _) hname, hmake₄, htype, Bool.or_false, cLocal]
  exact hend

/-- Linkage does what it is to do exactly if the bootstrap method's handle cannot be resolved, or if
all parts can be resolved without a suspension and there are handles enough. -/
theorem linkage_right_iff (calls : IndyCalls) (handles : List (Option ℕ)) :
    LinkageRight calls handles ↔ LinkageOk calls handles := by
  unfold LinkageRight LinkageOk
  cases hhandle : calls.handle.answer with
  | threw e =>
    have hresult : calls.result = .error e := by
      unfold IndyCalls.result
      rw [hhandle]
      rfl
    rw [hresult]
    apply iff_of_true _ (Or.inl ⟨e, rfl⟩)
    refine ⟨1, { LinkThread.start handles with currentException := some e }, ?_, by decide, rfl,
      rfl, rfl⟩
    unfold indyResolve
    rw [hhandle]
    rfl
  | value mh catches =>
    cases hresult : calls.result with
    | error e =>
      apply iff_of_false
      · rintro ⟨r, u, hreturned, -, -, hinvoked, -⟩
        exact invoked_of_returned hhandle hreturned hinvoked
      · rintro (⟨e', he'⟩ | ⟨⟨x, hx⟩, -⟩)
        · cases he'
        · cases hx
    | ok x =>
      obtain ⟨bh, args⟩ := x
      constructor
      · rintro ⟨r, u, hreturned, -⟩
        exact Or.inr ⟨⟨_, rfl⟩, indyResolve_eq hresult hreturned⟩
      · rintro (⟨e, he⟩ | ⟨-, hready, htype, hfree⟩)
        · cases he
        · obtain ⟨mt, hlinked⟩ := indyResolve_ready hresult hready htype hfree
          obtain ⟨hinvoked, hhandles⟩ := invokeWithArguments_called calls
            { LinkThread.start handles with resolvedMt := mt } bh (args.map some)
          have hcalm : { LinkThread.start handles with resolvedMt := mt }.currentException =
              none := rfl
          have hend := invokeWithArguments_end calls bh (args.map some) hcalm
          generalize invokeWithArguments calls { LinkThread.start handles with resolvedMt := mt } bh
            (args.map some) = p at hlinked hinvoked hhandles hend
          exact ⟨p.1, p.2, hlinked, hinvoked, hhandles, hend⟩

/-! ### Examples -/

def voidType (mt : ℕ) : MethodTypeCalls :=
  ⟨.value 0 false, [], ⟨⟨0, .value 1 false⟩, .value 2 false⟩, fun _ _ => .value mt false⟩

def oneArgument (arg : StaticArgument) : IndyCalls where
  handle := ⟨0, .value 10 false⟩
  lookup := .value 11 false
  array := .value 12 false
  arguments := [arg]
  name := .value 13 false
  methodType := voidType 14
  bootstrap _ _ := ⟨0, .value 15 false⟩

/-- The class of a static argument cannot be loaded: the null that stands for it is stored, and the
exception is noticed by a check that ends the process. Where the method type cannot be resolved, the
bootstrap method is called with the exception pending, and a handle is left. And a static argument
that suspends the function leaves it without the handle of the lookup object. -/
theorem linkage_ignores_failure :
    ¬ LinkageRight (oneArgument (.classInfo (.threw 7) (.value 0 false)))
        (List.replicate 200 none) ∧
      indyResolve (oneArgument (.classInfo (.threw 7) (.value 0 false)))
        (.start (List.replicate 200 none)) = .error .aborted ∧
      indyResolve { oneArgument (.string (.value 6 false)) with
          methodType := { voidType 14 with returnType := ⟨⟨0, .threw 7⟩, .value 2 false⟩ } }
        (.start (List.replicate 200 none)) = .ok (-1, {
          handles := List.replicate 4 none ++ some 0 :: List.replicate 195 none
          currentException := some 7
          invoked := [(10, [some 11, some 13, none, some 6])]
          ic := none
          resolvedMt := none }) ∧
      indyResolve (oneArgument (.methodHandle ⟨1, .value 6 false⟩))
        (.start (List.replicate 200 none)) = .error .undefined := by
  have haborted : indyResolve (oneArgument (.classInfo (.threw 7) (.value 0 false)))
      (.start (List.replicate 200 none)) = .error .aborted := rfl
  refine ⟨?_, haborted, rfl, rfl⟩
  rintro ⟨r, u, hreturned, -⟩
  rw [haborted] at hreturned
  cases hreturned

end TraceJvm
