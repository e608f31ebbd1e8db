import Mathlib.Logic.Function.Basic
import SysProg.Lib.CLang
import SysProg.Lib.Run

set_option autoImplicit false

/-! # The coroutine library (`1/solution/libcoro.c`)

A program for the library is its user code: what the main context and the coroutine bodies do up to
their next call of the library. Control inside the library is explicit: a saved `sigjmp_buf` says
where a jump to it continues, and a `step` runs user code up to a library call and this call up to
the next user code or the next iteration of `coro_sched_wait`. -/

namespace SysProg.Libcoro

/-- A pointer to a `struct coro`: the static `coro_sched` or a block `coro_new` allocated. -/
inductive CoroPtr where
  | sched
  | node (n : Nat)
deriving DecidableEq, Repr

/-- User code waiting to run: of the main context in a local state `k`, or of a coroutine in a local
    state `l`, above the frame of `coro_body` with its local variable `c`. -/
inductive Frame (K L : Type) where
  | main (k : K)
  | body (c : CoroPtr) (l : L)

/-- What called `coro_yield_to`, and goes on when it returns. -/
inductive Caller (K L : Type) where
  /-- `coro_yield`, called by user code. -/
  | yield (f : Frame K L)
  /-- `coro_sched_wait`, whose result goes to `k`. -/
  | wait (k : Option CoroPtr → K)

/-- A `sigjmp_buf`. -/
inductive Ctx (K L : Type) where
  /-- Never saved, or already jumped to: the frame that saved it may be gone. -/
  | unset
  /-- Saved by `coro_body`, with its local variable `c`. -/
  | body (c : CoroPtr)
  /-- Saved by `coro_yield_to`, with its local variable `src` (`from` in the source). -/
  | yieldTo (src : CoroPtr) (caller : Caller K L)

/-- `struct coro`. -/
structure Coro (K L : Type) where
  ret : Int
  /-- `func` with its argument `func_arg`: the local state the body starts in, or NULL. -/
  func : Option L
  ctx : Ctx K L
  isFinished : Bool
  switchCount : Int
  next : Option CoroPtr
  prev : Option CoroPtr

/-- What happens in a run, in the order it happens. -/
inductive Event where
  | new (c : CoroPtr)
  | yield (c : CoroPtr)
  /-- `siglongjmp` to the context of a coroutine. -/
  | switch (c : CoroPtr)
  /-- The body of `c` returns `v`. -/
  | ret (c : CoroPtr) (v : Int)
  /-- `coro_sched_wait` returns NULL, or a coroutine with its `is_finished` and `ret`. -/
  | wait (r : Option (CoroPtr × Bool × Int))
  | delete (c : CoroPtr)
deriving DecidableEq, Repr

/-- The coroutines created, in order. -/
def created (tr : List Event) : List CoroPtr :=
  tr.filterMap fun | .new c => some c | _ => none

/-- The coroutines that have returned, with the values they returned. -/
def returns (tr : List Event) : List (CoroPtr × Int) :=
  tr.filterMap fun | .ret c v => some (c, v) | _ => none

/-- The results of `coro_sched_wait`. -/
def waits (tr : List Event) : List (Option (CoroPtr × Bool × Int)) :=
  tr.filterMap fun | .wait r => some r | _ => none

/-- The coroutines `coro_sched_wait` has returned. -/
def waited (tr : List Event) : List CoroPtr :=
  tr.filterMap fun | .wait (some (c, _)) => some c | _ => none

def deleted (tr : List Event) : List CoroPtr :=
  tr.filterMap fun | .delete c => some c | _ => none

/-- How many times `coro_yield` and `coro_new` have been called. -/
def calls (tr : List Event) : Nat :=
  tr.countP fun | .new _ => true | .yield _ => true | _ => false

@[simp] theorem created_append (tr tr' : List Event) :
    created (tr ++ tr') = created tr ++ created tr' := List.filterMap_append

@[simp] theorem returns_append (tr tr' : List Event) :
    returns (tr ++ tr') = returns tr ++ returns tr' := List.filterMap_append

@[simp] theorem waits_append (tr tr' : List Event) :
    waits (tr ++ tr') = waits tr ++ waits tr' := List.filterMap_append

@[simp] theorem waited_append (tr tr' : List Event) :
    waited (tr ++ tr') = waited tr ++ waited tr' := List.filterMap_append

@[simp] theorem deleted_append (tr tr' : List Event) :
    deleted (tr ++ tr') = deleted tr ++ deleted tr' := List.filterMap_append

@[simp] theorem calls_append (tr tr' : List Event) : calls (tr ++ tr') = calls tr + calls tr' :=
  List.countP_append

/-- Where the thread of control is. -/
inductive Point (K L : Type) where
  | user (f : Frame K L)
  /-- At the head of the loop of `coro_sched_wait`, whose result goes to `k`. -/
  | wait (k : Option CoroPtr → K)
  /-- The main context has returned. -/
  | halted

/-- The library's memory, its static variables, the memory of the user code and the events so
    far. -/
structure State (K L M : Type) where
  heap : CoroPtr → Option (Coro K L)
  coroThisPtr : Option CoroPtr
  coroList : Option CoroPtr
  isSchedWaiting : Bool
  /-- `malloc` returns `node brk` next. -/
  brk : Nat
  point : Point K L
  mem : M
  trace : List Event

/-- Why a run stops inside the library or in user code. -/
inductive Halt where
  /-- User code stopped. -/
  | user (e : Stop)
  /-- `coro_body` exits with `Critical error - no place to return!`. -/
  | critical
  /-- The library follows a bad pointer, jumps to a bad context or finds a list without end. -/
  | fault
deriving DecidableEq, Repr

abbrev Lib := Except Halt

@[simp] theorem lib_pure_inj {α : Type} (a b : α) : (pure a : Lib α) = pure b ↔ a = b :=
  ⟨fun h => by cases h; rfl, fun h => by rw [h]⟩

/-- From a bind that returns, its two halves. -/
theorem lib_bind {α β : Type} {x : Lib α} {f : α → Lib β} {b : β} (h : (x >>= f) = pure b) :
    ∃ a, x = pure a ∧ f a = pure b := by
  cases x with
  | error e => cases h
  | ok a => exact ⟨a, rfl, h⟩

variable {K L M : Type}

/-! ## Memory -/

def State.get (s : State K L M) (c : CoroPtr) : Lib (Coro K L) :=
  match s.heap c with
  | some r => pure r
  | none => throw .fault

def State.modify (s : State K L M) (c : CoroPtr) (f : Coro K L → Coro K L) :
    Lib (State K L M) := do
  let r ← s.get c
  pure { s with heap := Function.update s.heap c (some (f r)) }

def State.log (s : State K L M) (e : Event) : State K L M := { s with trace := s.trace ++ [e] }

/-! ## `coro_list_add` and `coro_list_delete` -/

def coroListAdd (s : State K L M) (c : CoroPtr) : Lib (State K L M) := do
  let head := s.coroList
  let s ← s.modify c fun r => { r with next := head, prev := none }
  let s ← match head with
    | some h => s.modify h fun r => { r with prev := some c }
    | none => pure s
  pure { s with coroList := some c }

def coroListDelete (s : State K L M) (c : CoroPtr) : Lib (State K L M) := do
  let r ← s.get c
  let s ← match r.prev with
    | some p => s.modify p fun q => { q with next := r.next }
    | none => pure s
  let s ← match r.next with
    | some n => s.modify n fun q => { q with prev := r.prev }
    | none => pure s
  pure (if r.prev = none then { s with coroList := r.next } else s)

/-! ## Switching -/

/-- `siglongjmp(to->ctx, 1)`, up to the next user code or iteration of `coro_sched_wait`. -/
def longjmp (s : State K L M) (dst : CoroPtr) : Lib (State K L M) := do
  let r ← s.get dst
  let s ← s.modify dst fun r => { r with ctx := .unset }
  let s := s.log (.switch dst)
  match r.ctx with
  | .unset => throw .fault
  | .body c => do
    -- in `coro_body`: `coro_this_ptr = c`, then `c->func(c->func_arg)`
    let q ← s.get c
    match q.func with
    | some l => pure { s with coroThisPtr := some c, point := .user (.body c l) }
    | none => throw .fault
  | .yieldTo src (.yield f) => pure { s with coroThisPtr := some src, point := .user f }
  | .yieldTo src (.wait k) =>
    pure { s with coroThisPtr := some src, isSchedWaiting := false, point := .wait k }

def coroYieldTo (s : State K L M) (dst : CoroPtr) (caller : Caller K L) : Lib (State K L M) :=
  match s.coroThisPtr with
  | none => throw .fault
  | some src => do
    let s ← s.modify src fun r => { r with switchCount := r.switchCount + 1 }
    let s ← s.modify src fun r => { r with ctx := .yieldTo src caller }
    longjmp s dst

def coroYield (s : State K L M) (f : Frame K L) : Lib (State K L M) :=
  match s.coroThisPtr with
  | none => throw .fault
  | some src => do
    let r ← s.get src
    match r.next with
    | none => coroYieldTo (s.log (.yield src)) .sched (.yield f)
    | some dst => coroYieldTo (s.log (.yield src)) dst (.yield f)

/-! ## Creation, return and deletion -/

/-- `coro_body` when the signal arrives: it saves its context and jumps back to `coro_new`. -/
def coroBodyEnter (s : State K L M) : Lib (State K L M) :=
  match s.coroThisPtr with
  | none => throw .fault
  | some c => State.modify { s with coroThisPtr := none } c fun r => { r with ctx := .body c }

def coroNew (s : State K L M) (func : L) : Lib (CoroPtr × State K L M) := do
  let c := CoroPtr.node s.brk
  let s := { s with
    brk := s.brk + 1
    heap := Function.update s.heap c (some
      { ret := 0, func := some func, ctx := .unset, isFinished := false, switchCount := 0,
        next := none, prev := none }) }
  let oldThis := s.coroThisPtr
  -- `raise(SIGUSR2)`, with the handler `coro_body` on the new stack
  let s ← coroBodyEnter { s with coroThisPtr := some c }
  let s ← coroListAdd { s with coroThisPtr := oldThis } c
  pure (c, s.log (.new c))

/-- The end of `coro_body`, when `func` has returned `v`. -/
def coroBodyExit (s : State K L M) (c : CoroPtr) (v : Int) : Lib (State K L M) := do
  let s ← s.modify c fun r => { r with ret := v }
  let s ← s.modify c fun r => { r with isFinished := true }
  let s := s.log (.ret c v)
  if s.isSchedWaiting then longjmp s .sched else throw .critical

/-- `coro_delete`. Its argument is a coroutine that `coro_sched_wait` has returned and that has not
    been deleted; anything else is an error of the caller. -/
def coroDelete (s : State K L M) (c : CoroPtr) : Lib (State K L M) :=
  if c ∈ waited s.trace ∧ c ∉ deleted s.trace then
    pure ({ s with heap := Function.update s.heap c none }.log (.delete c))
  else throw (.user .undefined)

/-! ## `coro_sched_wait` -/

/-- The search of `coro_sched_wait` for a finished coroutine, from `c` on. -/
def findFinished (s : State K L M) : Nat → Option CoroPtr → Lib (Option CoroPtr)
  | 0, _ => throw .fault
  | _ + 1, none => pure none
  | fuel + 1, some c => do
    let r ← s.get c
    if r.isFinished then pure (some c) else findFinished s fuel r.next

/-- One iteration of `coro_sched_wait`. The list has at most `brk` members. -/
def coroSchedWait (s : State K L M) (k : Option CoroPtr → K) : Lib (State K L M) :=
  match s.coroList with
  | none => pure ({ s with point := .user (.main (k none)) }.log (.wait none))
  | some head => do
    match ← findFinished s (s.brk + 1) (some head) with
    | some c => do
      let s ← coroListDelete s c
      let r ← s.get c
      pure ({ s with point := .user (.main (k (some c))) }.log
        (.wait (some (c, r.isFinished, r.ret))))
    | none => coroYieldTo { s with isSchedWaiting := true } head (.wait k)

/-! ## Programs -/

/-- What user code sees of the library without calling into the scheduler. -/
structure View where
  coroThis : Option CoroPtr
  coroStatus : CoroPtr → C Int
  coroSwitchCount : CoroPtr → C Int
  coroIsFinished : CoroPtr → C Bool

def State.look {α : Type} (s : State K L M) (f : Coro K L → α) (c : CoroPtr) : C α :=
  match s.heap c with
  | some r => pure (f r)
  | none => throw .undefined

def State.view (s : State K L M) : View :=
  { coroThis := s.coroThisPtr, coroStatus := s.look Coro.ret,
    coroSwitchCount := s.look Coro.switchCount, coroIsFinished := s.look Coro.isFinished }

/-- A library call from anywhere, with the local state `X` it returns to. -/
inductive Call (L X : Type) where
  | yield (x : X)
  | new (func : L) (k : CoroPtr → X)
  | delete (c : CoroPtr) (x : X)

/-- What the main context does next: only it waits. -/
inductive MainCall (K L : Type) where
  | call (u : Call L K)
  | wait (k : Option CoroPtr → K)
  | done

/-- What a coroutine body does next. -/
inductive BodyCall (L : Type) where
  | call (u : Call L L)
  | ret (v : Int)

/-- User code, up to its next library call. -/
structure Program (K L M : Type) where
  main : View → K → M → C (MainCall K L × M)
  body : View → L → M → C (BodyCall L × M)

def doCall {X : Type} (s : State K L M) (frame : X → Frame K L) : Call L X → Lib (State K L M)
  | .yield x => coroYield s (frame x)
  | .new func k => do
    let (c, s) ← coroNew s func
    pure { s with point := .user (frame (k c)) }
  | .delete c x => do
    let s ← coroDelete s c
    pure { s with point := .user (frame x) }

/-- User code stops the run when it does not reach a library call. -/
def runUser {α : Type} : C α → Lib α
  | .ok a => pure a
  | .error e => throw (.user e)

/-- One step; nothing once the main context has returned. -/
def step (P : Program K L M) (s : State K L M) : Lib (Option (State K L M)) :=
  match s.point with
  | .halted => pure none
  | .wait k => do
    let s ← coroSchedWait s k
    pure (some s)
  | .user (.main k) => do
    let (call, mem) ← runUser (P.main s.view k s.mem)
    let s := { s with mem := mem }
    match call with
    | .call u => do
      let s ← doCall s .main u
      pure (some s)
    | .wait k => pure (some { s with point := .wait k })
    | .done => pure (some { s with point := .halted })
  | .user (.body c l) => do
    let (call, mem) ← runUser (P.body s.view l s.mem)
    let s := { s with mem := mem }
    match call with
    | .call u => do
      let s ← doCall s (.body c) u
      pure (some s)
    | .ret v => do
      let s ← coroBodyExit s c v
      pure (some s)

/-- The state after `coro_sched_init`, with user code `k` about to run. -/
def init (k : K) (mem : M) : State K L M :=
  { heap := fun c => if c = .sched then some
      { ret := 0, func := none, ctx := .unset, isFinished := false, switchCount := 0,
        next := none, prev := none } else none
    coroThisPtr := some .sched
    coroList := none
    isSchedWaiting := false
    brk := 0
    point := .user (.main k)
    mem := mem
    trace := [] }

/-- The states of a run of `P`. -/
abbrev Reaches (P : Program K L M) : State K L M → State K L M → Prop := Run.Reaches (step P)

end SysProg.Libcoro
