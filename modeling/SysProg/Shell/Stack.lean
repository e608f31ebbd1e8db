import SysProg.Lib.CLang

set_option autoImplicit false

/-! # The character stack (`2/solution/stack.c`)

A `struct char_stack` is the list of its nodes' characters, top first. Every node is a heap block, so
the operations count blocks in `Alloc`; the struct itself is one more block, allocated by `csInit`
and freed by its owner. -/

namespace SysProg.Shell

/-- `struct char_stack`: the characters from `top` down. -/
abbrev CharStack := List CChar

def csInit : Alloc CharStack := do
  malloc
  pure []

def csPush (stack : CharStack) (data : CChar) : Alloc CharStack := do
  malloc
  pure (data :: stack)

def csIsempty (stack : CharStack) : Bool := stack.isEmpty

def csPeek : CharStack → Alloc CChar
  | [] => throw .undefined
  | c :: _ => pure c

def csPop : CharStack → Alloc CharStack
  | [] => throw .undefined
  | _ :: rest => do
      free
      pure rest

/-- A fresh array with the characters of the stack, top first. -/
def csSplice (stack : CharStack) : Alloc (List CChar) := do
  malloc
  pure stack

/-- The loop of `cs_reverse`: push every remaining character onto `temp`. -/
def csReverseLoop (temp : CharStack) : CharStack → Alloc CharStack
  | [] => pure temp
  | c :: rest => do
      let temp ← csPush temp c
      csReverseLoop temp rest

def csReverse (stack : CharStack) : Alloc CharStack := do
  let temp ← csInit
  csReverseLoop temp stack

def csFree : CharStack → Alloc CharStack
  | [] => pure []
  | c :: rest => do
      let _ ← csPop (c :: rest)
      csFree rest

/-! ## What the operations do -/

@[simp] theorem csInit_run (live : Int) : csInit.run live = pure ([], live + 1) := by
  simp [csInit]

@[simp] theorem csPush_run (stack : CharStack) (c : CChar) (live : Int) :
    (csPush stack c).run live = pure (c :: stack, live + 1) := by
  simp [csPush]

@[simp] theorem csPop_run (c : CChar) (rest : CharStack) (live : Int) :
    (csPop (c :: rest)).run live = pure (rest, live - 1) := by
  simp [csPop]

@[simp] theorem csPeek_run (c : CChar) (rest : CharStack) (live : Int) :
    (csPeek (c :: rest)).run live = pure (c, live) := rfl

@[simp] theorem csSplice_run (stack : CharStack) (live : Int) :
    (csSplice stack).run live = pure (stack, live + 1) := by
  simp [csSplice]

theorem csReverseLoop_run (temp stack : CharStack) (live : Int) :
    (csReverseLoop temp stack).run live
      = pure (stack.reverse ++ temp, live + stack.length) := by
  induction stack generalizing temp live with
  | nil => simp [csReverseLoop]
  | cons c rest ih =>
      simp only [csReverseLoop, StateT.run_bind, csPush_run, pure_bind, ih, List.length_cons,
        List.reverse_cons, List.append_assoc, List.singleton_append]
      congr 2
      push_cast
      ring

@[simp] theorem csReverse_run (stack : CharStack) (live : Int) :
    (csReverse stack).run live = pure (stack.reverse, live + 1 + stack.length) := by
  simp [csReverse, csReverseLoop_run]

@[simp] theorem csFree_run (stack : CharStack) (live : Int) :
    (csFree stack).run live = pure ([], live - stack.length) := by
  induction stack generalizing live with
  | nil => simp [csFree]
  | cons c rest ih =>
      simp only [csFree, StateT.run_bind, csPop_run, pure_bind, ih, List.length_cons]
      congr 2
      push_cast
      ring

end SysProg.Shell
