import Mathlib.Data.Finset.Card
import SysProg.Lib.CLang

set_option autoImplicit false

/-! # The heap wrappers (`utils/heap_help/heap_help.c`, `2/solution/heap_help/heap_help.c`)

Both files redefine the functions that allocate on the heap: a wrapper calls the function of the C
library that it hides and keeps `alloc_count`. The C library is a parameter, a `Libc` over some type
of heaps; its functions are taken not to call the wrappers themselves. The two files differ in when the
pointers to the hidden functions are set, and in `free`. There are never `2 ^ 63` blocks, so
`alloc_count` is an `Int`. -/

namespace SysProg.HeapHelp

/-! ## The C library -/

/-- A pointer other than NULL; NULL is `none`. -/
abbrev Ptr := Nat

/-- What `getline` returns and leaves in `*linep` and `*linecapp`. -/
structure LineResult where
  res : Int
  line : Option Ptr
  linecap : Nat

/-- The functions of the C library, over heaps `H`. Each of them may stop the program, as `free` and
    `realloc` do when they are given what is not a block of theirs. -/
structure Libc (H : Type) where
  malloc : Nat → H → C (Option Ptr × H)
  calloc : Nat → Nat → H → C (Option Ptr × H)
  realloc : Option Ptr → Nat → H → C (Option Ptr × H)
  strdup : Ptr → H → C (Option Ptr × H)
  getline : Option Ptr → Nat → H → C (LineResult × H)
  free : Ptr → H → C H

section Lawful

variable {H : Type}

/-- `x` returns, with `P` of the result. -/
def Gives {A : Type} (x : C A) (P : A → Prop) : Prop := ∃ a, x = pure a ∧ P a

/-- `r` is a new block in a heap that was `h`, or NULL. -/
def Allocates (live : H → Finset Ptr) (h : H) (r : Option Ptr × H) : Prop :=
  match r.1 with
  | some p => p ∉ live h ∧ live r.2 = insert p (live h)
  | none => live r.2 = live h

/-- `r` is the block that was at `p`, there or somewhere else. -/
def Moves (live : H → Finset Ptr) (p : Ptr) (h : H) (r : Option Ptr × H) : Prop :=
  ∃ q, r.1 = some q ∧ q ∉ (live h).erase p ∧ live r.2 = insert q ((live h).erase p)

/-- The documented behaviour of the C library, where `live` are the blocks of a heap. -/
structure Libc.Lawful (libc : Libc H) (live : H → Finset Ptr) : Prop where
  malloc : ∀ size h, Gives (libc.malloc size h) (Allocates live h)
  calloc : ∀ num size h, Gives (libc.calloc num size h) (Allocates live h)
  strdup : ∀ p h, Gives (libc.strdup p h) (Allocates live h)
  realloc_null : ∀ size h, Gives (libc.realloc none size h) (Allocates live h)
  /-- The block is moved or grown; on a failure it stays as it is. -/
  realloc : ∀ p size h, p ∈ live h → size ≠ 0 → Gives (libc.realloc (some p) size h) fun r =>
    Moves live p h r ∨ (r.1 = none ∧ live r.2 = live h)
  /-- For the size 0 the block is freed and NULL returned. -/
  realloc_zero : ∀ p h, p ∈ live h → Gives (libc.realloc (some p) 0 h) fun r =>
    r.1 = none ∧ live r.2 = (live h).erase p
  /-- A buffer is allocated for NULL. -/
  getline_null : ∀ cap h, Gives (libc.getline none cap h) fun r => Allocates live h (r.1.line, r.2)
  /-- The buffer is grown when it is too small. -/
  getline : ∀ p cap h, p ∈ live h → Gives (libc.getline (some p) cap h) fun r =>
    Moves live p h (r.1.line, r.2)
  free : ∀ p h, p ∈ live h → Gives (libc.free p h) fun h' => live h' = (live h).erase p

end Lawful

/-! ## The wrappers -/

/-- The two files. -/
inductive Copy where
  /-- `utils/heap_help/heap_help.c`. -/
  | utils
  /-- `2/solution/heap_help/heap_help.c`. -/
  | solution
deriving DecidableEq

/-- The heap and the static variables. -/
structure HeapState (H : Type) where
  heap : H
  allocCount : Int
  globalLock : Bool
  /-- The variable of `heaph_touch`. -/
  isDone : Bool
  /-- Whether the pointers to the functions of the C library have been set. -/
  initialized : Bool

abbrev M (H : Type) := StateT (HeapState H) C

variable {H : Type}

/-- The variables before the first call. The program of the second file has called `heaph_init`. -/
def start (copy : Copy) (h : H) : HeapState H :=
  { heap := h, allocCount := 0, globalLock := false, isDone := false
    initialized := decide (copy = .solution) }

/-- A call of a function of the C library through its pointer. -/
def callDefault {A : Type} (f : H → C (A × H)) : M H A := do
  let s ← get
  if s.initialized then do
    let (res, heap) ← f s.heap
    set { s with heap := heap }
    pure res
  else throw .undefined

def allocCountInc : M H Unit := modify fun s => { s with allocCount := s.allocCount + 1 }

def allocCountSub : M H Unit := do
  modify fun s => { s with allocCount := s.allocCount - 1 }
  let s ← get
  if 0 ≤ s.allocCount then pure () else throw (.exit 1)

/-- A single thread finds the lock free, or waits forever. -/
def heaphLock : M H Unit := do
  let s ← get
  if s.globalLock then throw .diverge else set { s with globalLock := true }

/-- A failed assertion ends the program with SIGABRT. -/
def assertThat (b : Bool) : M H Unit := if b then pure () else throw (.exit 134)

def heaphUnlock : M H Unit := do
  let s ← get
  assertThat s.globalLock
  set { s with globalLock := false }

/-- `heaph_init`, but for the report at exit. -/
def heaphInit : M H Unit := modify fun s => { s with initialized := true }

def heaphTouch : M H Unit := do
  let s ← get
  if s.isDone then pure ()
  else do
    heaphLock
    heaphInit
    let s ← get
    set { s with isDone := true }
    heaphUnlock
    assertThat (!s.isDone)

/-- The first statement of a wrapper, which only the first file has. -/
def touch : Copy → M H Unit
  | .utils => heaphTouch
  | .solution => pure ()

/-- A wrapper of a function that returns a new block or NULL. -/
def countNew (copy : Copy) (f : H → C (Option Ptr × H)) : M H (Option Ptr) := do
  touch copy
  let res ← callDefault f
  if res ≠ none then allocCountInc
  pure res

def malloc (copy : Copy) (libc : Libc H) (size : Nat) : M H (Option Ptr) :=
  countNew copy (libc.malloc size)

def calloc (copy : Copy) (libc : Libc H) (num size : Nat) : M H (Option Ptr) :=
  countNew copy (libc.calloc num size)

def strdup (copy : Copy) (libc : Libc H) (ptr : Ptr) : M H (Option Ptr) :=
  countNew copy (libc.strdup ptr)

def realloc (copy : Copy) (libc : Libc H) (ptr : Option Ptr) (size : Nat) : M H (Option Ptr) := do
  touch copy
  let res ← callDefault (libc.realloc ptr size)
  if ptr = none ∧ res ≠ none then allocCountInc
  pure res

def getline (copy : Copy) (libc : Libc H) (line : Option Ptr) (linecap : Nat) :
    M H LineResult := do
  touch copy
  let res ← callDefault (libc.getline line linecap)
  if line = none ∧ res.line ≠ none then allocCountInc
  pure res

/-- `default_free(ptr)`. -/
def callFree (libc : Libc H) (p : Ptr) : M H Unit :=
  callDefault fun h => do
    let h ← libc.free p h
    pure ((), h)

def free (copy : Copy) (libc : Libc H) (ptr : Option Ptr) : M H Unit :=
  match ptr with
  | none => pure ()
  | some p =>
    match copy with
    | .utils => do
      heaphTouch
      allocCountSub
      callFree libc p
    | .solution => do
      callFree libc p
      let s ← get
      if s.allocCount = 0 then throw (.exit 1)
      else set { s with allocCount := s.allocCount - 1 }

def heaphGetAllocCount (s : HeapState H) : Int := s.allocCount

/-! ## Sequences of calls -/

/-- A call of a wrapper. -/
inductive Call where
  | malloc (size : Nat)
  | calloc (num size : Nat)
  | realloc (ptr : Option Ptr) (size : Nat)
  | strdup (ptr : Ptr)
  | getline (line : Option Ptr) (linecap : Nat)
  | free (ptr : Option Ptr)

/-- The call, without its result. -/
def perform (copy : Copy) (libc : Libc H) : Call → M H Unit
  | .malloc size => do
    let _ ← malloc copy libc size
  | .calloc num size => do
    let _ ← calloc copy libc num size
  | .realloc ptr size => do
    let _ ← realloc copy libc ptr size
  | .strdup ptr => do
    let _ ← strdup copy libc ptr
  | .getline line linecap => do
    let _ ← getline copy libc line linecap
  | .free ptr => free copy libc ptr

/-- The calls one after the other. -/
def performAll (copy : Copy) (libc : Libc H) : List Call → M H Unit
  | [] => pure ()
  | c :: calls => do
    perform copy libc c
    performAll copy libc calls

end SysProg.HeapHelp
