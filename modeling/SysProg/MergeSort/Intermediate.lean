import SysProg.Coro.Libcoro
import SysProg.MergeSort.Merge
import SysProg.MergeSort.ReadFile

set_option autoImplicit false

/-! # `intermediate` (`1/solution/solution.c`)

The coroutines that sort the files: `get_file`, `me_mergesort` and `intermediate`, cut at the calls of
`coro_yield`. Each piece runs from one call to the next one or to the end; what a coroutine keeps on
its stack meanwhile is a `Local`. -/

namespace SysProg.MergeSort

open Libcoro

/-! ## Memory -/

/-- `struct coro_file`. -/
structure CoroFile where
  name : List CChar
  processed : Bool
  index : Nat

/-- `struct coro_args`. Its other members are its name and pointers to the tables of `main`, the
    same in all of them. -/
structure CoroArgs where
  switchCount : Int
  filesLength : Nat
  tInvoked : UInt64
  tSummary : UInt64

/-- What a coroutine writes besides its own `struct coro_args`. -/
inductive Location where
  /-- `files[i]->processed`. -/
  | processed (i : Nat)
  /-- The pointer `numbers[i]`. -/
  | numbers (i : Nat)
  | arraysLength (i : Nat)
  /-- The integers of an array that `read_file` allocated. -/
  | ints (b : Nat)
deriving DecidableEq, Repr

/-- The tables of `main` and the arrays `read_file` allocated. A pointer to an array is its position
    in `blocks`, and a pointer to a `struct coro_file` or `struct coro_args` the one in its table. -/
structure Mem where
  files : List CoroFile
  numbers : List (Option Nat)
  arraysLength : List Int
  blocks : List (List Int)
  args : List CoroArgs
  /-- How often `clock_gettime` has been called. -/
  ticks : Nat
  /-- Which coroutine, by its arguments, has written where, in the order of the writes. -/
  writes : List (Nat × Location)
  /-- The numbers written to the output file. -/
  output : List Int

/-- The local variables of `me_mergesort`, and `file` of the `intermediate` that called it. -/
structure SortFrame where
  file : Nat
  array : Option Nat
  rhs : Int
  this : Option CoroPtr
  currSize : Int

/-- Where a coroutine goes on when it is resumed. -/
inductive Resume where
  | start
  /-- After the `coro_yield` of `intermediate`. -/
  | afterRead (file : Nat) (arrayLen : Int)
  /-- After the `coro_yield` in the inner loop of `me_mergesort`. -/
  | afterMerge (f : SortFrame) (leftStart : Int)
  /-- After the `coro_yield` in the outer loop of `me_mergesort`. -/
  | afterPass (f : SortFrame)

/-- The stack of a coroutine: the argument of `intermediate` and where it goes on. -/
structure Local where
  args : Nat
  resume : Resume

/-! ## Clocks -/

/-- `args->t_invoked = ..` after a `clock_gettime`. -/
def startClock (env : Env) (me : Nat) (mem : Mem) : C Mem := do
  let args ← load mem.args me
  let args ← store mem.args me { args with tInvoked := env.clock mem.ticks }
  pure { mem with args := args, ticks := mem.ticks + 1 }

/-- `args->t_summary += ..` after a `clock_gettime`. -/
def stopClock (env : Env) (me : Nat) (mem : Mem) : C Mem := do
  let args ← load mem.args me
  let args ← store mem.args me
    { args with tSummary := args.tSummary + (env.clock mem.ticks - args.tInvoked) }
  pure { mem with args := args, ticks := mem.ticks + 1 }

/-- `args->switch_count = coro_switch_count(this)`. -/
def setSwitchCount (view : View) (this : Option CoroPtr) (me : Nat) (mem : Mem) : C Mem :=
  match this with
  | none => throw .undefined
  | some c => do
    let n ← view.coroSwitchCount c
    let args ← load mem.args me
    let args ← store mem.args me { args with switchCount := n }
    pure { mem with args := args }

/-! ## `get_file` and the loop of `intermediate` -/

/-- The loop of `get_file`, with `n` files left from `files[i]` on. -/
def getFileLoop (files : List CoroFile) (i : Nat) : Nat → C (Option Nat)
  | 0 => pure none
  | n + 1 => do
    let f ← load files i
    if f.processed then getFileLoop files (i + 1) n else pure (some i)

def getFile (files : List CoroFile) (size : Nat) : C (Option Nat) := getFileLoop files 0 size

/-- `file->processed = true`. -/
def claim (me file : Nat) (f : CoroFile) (mem : Mem) : Mem :=
  { mem with
    files := mem.files.set file { f with processed := true }
    writes := mem.writes ++ [(me, .processed file)] }

/-- `arrays_length[file->index] = read_file(.., &array[file->index], ..)`. -/
def readInto (env : Env) (me : Nat) (f : CoroFile) (mem : Mem) : C (Int × Mem) := do
  let (temp, arrayLen) ← readFile env f.name
  let numbers ← store mem.numbers f.index (some mem.blocks.length)
  let arraysLength ← store mem.arraysLength f.index arrayLen
  pure (arrayLen, { mem with
    blocks := mem.blocks ++ [temp]
    numbers := numbers
    arraysLength := arraysLength
    writes := mem.writes ++ [(me, .ints mem.blocks.length), (me, .numbers f.index),
      (me, .arraysLength f.index)] })

/-- From the head of the loop of `intermediate`, to the `coro_yield` after reading a file or to the
    end. -/
def nextFile (env : Env) (me : Nat) (mem : Mem) : C (BodyCall Local × Mem) := do
  let args ← load mem.args me
  match ← getFile mem.files args.filesLength with
  | none => do
    let mem ← stopClock env me mem
    pure (.ret 0, mem)
  | some file => do
    let f ← load mem.files file
    let (arrayLen, mem) ← readInto env me f (claim me file f mem)
    let mem ← stopClock env me mem
    pure (.call (.yield ⟨me, .afterRead file arrayLen⟩), mem)

/-! ## `me_mergesort` -/

/-- A call of `me_merge` on the array at `p`. -/
def mergeAt (me : Nat) (p : Option Nat) (lhs mid rhs : Int) (mem : Mem) : C Mem :=
  match p with
  | none => throw .undefined
  | some b => do
    let array ← load mem.blocks b
    let array ← meMerge array lhs mid rhs
    let blocks ← store mem.blocks b array
    pure { mem with blocks := blocks, writes := mem.writes ++ [(me, .ints b)] }

/-- From the head of the inner loop of `me_mergesort` to the next `coro_yield`. -/
def innerLoop (env : Env) (me : Nat) (f : SortFrame) (leftStart : Int) (mem : Mem) :
    C (BodyCall Local × Mem) := do
  let last ← int32 (f.rhs - 1)
  if leftStart < last then do
    let leftEnd ← int32 (leftStart + f.currSize)
    let width ← int32 (2 * f.currSize)
    let rightEnd ← int32 (leftStart + width)
    let mem ← mergeAt me f.array leftStart (min (leftEnd - 1) last) (min (rightEnd - 1) last) mem
    let mem ← stopClock env me mem
    pure (.call (.yield ⟨me, .afterMerge f leftStart⟩), mem)
  else do
    let mem ← stopClock env me mem
    pure (.call (.yield ⟨me, .afterPass f⟩), mem)

/-- From the head of the outer loop of `me_mergesort` to the next `coro_yield`, or over its end back
    to the loop of `intermediate`. -/
def outerLoop (env : Env) (view : View) (me : Nat) (f : SortFrame) (mem : Mem) :
    C (BodyCall Local × Mem) :=
  if f.currSize ≤ f.rhs then innerLoop env me f 0 mem
  else do
    let mem ← setSwitchCount view f.this me mem
    nextFile env me mem

/-- `intermediate`, from where it is resumed to its next `coro_yield` or its end. -/
def intermediate (env : Env) (view : View) (l : Local) (mem : Mem) : C (BodyCall Local × Mem) := do
  let mem ← startClock env l.args mem
  match l.resume with
  | .start => nextFile env l.args mem
  | .afterRead file arrayLen => do
    let f ← load mem.files file
    let array ← load mem.numbers f.index
    outerLoop env view l.args
      { file := file, array := array, rhs := arrayLen, this := view.coroThis, currSize := 1 } mem
  | .afterMerge f leftStart => do
    let width ← int32 (2 * f.currSize)
    let leftStart ← int32 (leftStart + width)
    innerLoop env l.args f leftStart mem
  | .afterPass f => do
    let currSize ← int32 (2 * f.currSize)
    outerLoop env view l.args { f with currSize := currSize } mem

end SysProg.MergeSort
