import SysProg.Shell.Command

set_option autoImplicit false

/-! # Running commands and the shell loop (`2/solution/solution.c`)

The operating system is a parameter: an `Os` answers each call from the events so far. A process
that `fork` creates runs up to its `execvp`; `waitpid` returns. The child has the open file of `stdin`,
and its offset, in common with the shell: what it reads, and what its `exit` puts back, decides with
what the shell goes on. -/

namespace SysProg.Shell

/-- What the shell and its child processes ask of the operating system. -/
inductive Event where
  | stdout (text : List CChar)
  | stderr (text : List CChar)
  | chdir (dir : List CChar)
  | fork
  /-- In the child process: `execvp(file, argv)`, the NULL in `argv` included. -/
  | execvp (file : List CChar) (argv : List (Option (List CChar)))
  /-- The child process ends with `exit(status)`. -/
  | childExit (status : Int)
  | waitpid
deriving DecidableEq, Repr

/-- The answers of the operating system and of the C library, given the events so far. -/
structure Os where
  /-- `chdir(dir)` succeeds. -/
  chdir : List Event → List CChar → Bool
  /-- `fork()` creates a process. -/
  fork : List Event → Bool
  /-- `execvp(file, argv)` finds its program. -/
  execvp : List Event → List CChar → Bool
  /-- `strerror(errno)` after a failure. -/
  strerror : List Event → List CChar
  /-- What the shell finds on `stdin` after the commands of a line, in place of the bytes that were left
      before them. -/
  stdin : List Event → List CChar → List CChar
  /-- What `alloc_count` holds for the C library, whose own calls go through the wrappers too: the
      buffers of its streams are of this kind. -/
  libcBlocks : List Event → Int

/-- An operating system on which every call succeeds, with programs that read no input. -/
def Os.willing : Os :=
  { chdir := fun _ _ => true, fork := fun _ => true, execvp := fun _ _ => true,
    strerror := fun _ => [], stdin := fun _ bytes => bytes, libcBlocks := fun _ => 3 }

/-- The child processes leave the input of the shell alone: none of them reads from `stdin`, or moves
    its offset when it ends. -/
def Os.LeavesStdin (os : Os) : Prop := ∀ tr bytes, os.stdin tr bytes = bytes

def EXIT_FAILURE : Int := 1

def nameCd : List CChar := ascii ['c', 'd']

def nameExit : List CChar := ascii ['e', 'x', 'i', 't']

/-! ## `add_name_to_argv` -/

/-- The loop of `add_name_to_argv`: copies of the first `n` entries. -/
def copyArgs : Nat → List (List CChar) → Alloc (List (Option (List CChar)))
  | 0, _ => pure []
  | _ + 1, [] => throw .undefined
  | n + 1, arg :: rest => do
      let copy ← strdup arg
      let copies ← copyArgs n rest
      pure (some copy :: copies)

/-- `add_name_to_argv`; `none` stands for NULL. -/
def addNameToArgv (name : List CChar) (argv : List (List CChar)) (argc : Nat) :
    Alloc (List (Option (List CChar))) := do
  malloc
  let first ← strdup name
  let copies ← copyArgs argc argv
  pure (some first :: (copies ++ [none]))

/-! ## `exec_cmds` -/

/-- The child process after `fork`. Its heap is a copy, which nothing reads afterwards. -/
def execChild (os : Os) (cmd : Cmd) (live : Int) (tr : List Event) : C (List Event) := do
  let (nameArgs, _) ← (addNameToArgv cmd.name cmd.argv cmd.argc).run live
  let tr := tr ++ [.execvp cmd.name nameArgs]
  if os.execvp tr cmd.name then pure tr
  else pure (tr ++ [.stderr (ascii "Error during execvp() call: ".toList ++ os.strerror tr ++
    [chNewline]), .childExit EXIT_FAILURE])

/-- One iteration of `exec_cmds`; also whether it returns 1. -/
def execCmd (os : Os) (cmd : Cmd) (tr : List Event) : Alloc (Bool × List Event) := do
  if cmd.name = nameCd then
    -- `argv` is NULL when the command has no argument
    match cmd.argv with
    | [] => throw .undefined
    | dir :: _ =>
      if os.chdir tr dir then pure (false, tr ++ [.chdir dir])
      else pure (false, tr ++ [.chdir dir,
        .stderr (ascii "cd: no such file or directory: ".toList ++ dir ++ [chNewline])])
  else if cmd.name = nameExit then pure (true, tr)
  else if os.fork tr then do
    let live ← get
    let tr ← execChild os cmd live (tr ++ [.fork])
    -- in the parent `name_args` is NULL, and nothing is freed
    pure (false, tr ++ [.waitpid])
  else throw (.exit EXIT_FAILURE)

/-- The loop of `exec_cmds` over the `n` commands from `comms` on. -/
def execCmds (os : Os) : Nat → List (Option Cmd) → List Event → Alloc (Int × List Event)
  | 0, _, tr => pure (0, tr)
  | n + 1, some cmd :: rest, tr => do
    let (exits, tr) ← execCmd os cmd tr
    if exits then pure (1, tr) else execCmds os n rest tr
  -- an entry beyond the array, or never written
  | _ + 1, _, _ => throw .undefined

/-! ## `shell_loop` -/

/-- The loop that frees the commands. -/
def freeCmds : Nat → List (Option Cmd) → Alloc Unit
  | 0, _ => pure ()
  | n + 1, some cmd :: rest => do
      cmdFree cmd
      freeCmds n rest
  | _ + 1, _ => throw .undefined

/-- `if (p != NULL) free(p)`, as `free` itself does. -/
def freeUnless (isNull : Bool) : Alloc Unit := if isNull then pure () else free

/-- One iteration of `shell_loop`: its status, the events and the bytes left on `stdin`. -/
def shellStep (os : Os) (tr : List Event) (stdin : List CChar) :
    Alloc (Int × List Event × List CChar) := do
  let tr := tr ++ [.stdout (ascii ['$', '>', ' '])]
  let (rawInput, stdin) ← readLine stdin
  let tokens ← parseLine rawInput
  let tokensLen := tokens.second
  let tokensArgs := tokens.first.map cstr
  let cmds ← parseCmds tokensArgs tokensLen
  let commandsArray := (cmds.map Pair.first).getD []
  let commandsCount := ((cmds.map Pair.second).getD 0).toNat
  let (status, tr) ← execCmds os commandsCount commandsArray tr
  freeCmds commandsCount commandsArray
  freeUnless cmds.isNone
  freeUnless cmds.isNone
  free
  freeStrings tokensLen.toNat tokensArgs
  freeUnless tokensArgs.isEmpty
  free
  -- the shell reads nothing while its children run, so that they can be taken together here
  pure (status, tr, os.stdin tr stdin)

/-- `shell_loop`, for at most `fuel` iterations. -/
def shellLoop (os : Os) : Nat → List Event → List CChar → Alloc (List Event)
  | 0, _, _ => throw .diverge
  | fuel + 1, tr, stdin => do
    let (status, tr, stdin) ← shellStep os tr stdin
    if status ≠ 0 then pure tr else shellLoop os fuel tr stdin

/-! ## The commands of a line -/

/-- The commands `parse_cmds` makes of the next line of a stream: the first entries of its array, as
    many as it counts. -/
def readCommands (stdin : List CChar) : C (List (Option Cmd)) := do
  let ((rawInput, _), live) ← (readLine stdin).run 0
  let (tokens, live) ← (parseLine rawInput).run live
  let (cmds, _) ← (parseCmds (tokens.first.map cstr) tokens.second).run live
  pure ((cmds.map fun p => p.first.take p.second.toNat).getD [])

/-- `exec_cmds` on them. -/
def execLine (os : Os) (tr : List Event) (stdin : List CChar) : C (Int × List Event) := do
  let cmds ← readCommands stdin
  let (r, _) ← (execCmds os cmds.length cmds tr).run 0
  pure r

/-! ## What they do -/

theorem copyArgs_run (argv : List (List CChar)) (live : Int) :
    (copyArgs argv.length argv).run live = pure (argv.map some, live + argv.length) := by
  induction argv generalizing live with
  | nil => simp [copyArgs]
  | cons arg argv ih =>
      simp only [List.length_cons, copyArgs, StateT.run_bind, strdup_run, pure_bind, ih,
        StateT.run_pure, List.map_cons, pure_inj, Prod.mk.injEq, true_and]
      push_cast
      ring

/-- The vector handed to `execvp`: the name, the arguments and one NULL. -/
def Cmd.vector (cmd : Cmd) : List (Option (List CChar)) :=
  some cmd.name :: (cmd.argv.map some ++ [none])

theorem addNameToArgv_run {cmd : Cmd} (h : cmd.argc = cmd.argv.length) (live : Int) :
    (addNameToArgv cmd.name cmd.argv cmd.argc).run live
      = pure (cmd.vector, live + 2 + cmd.argv.length) := by
  simp only [addNameToArgv, h, StateT.run_bind, malloc_run, pure_bind, strdup_run, copyArgs_run,
    StateT.run_pure, Cmd.vector, pure_inj, Prod.mk.injEq, true_and]
  ring

/-- The files and argument vectors of the `execvp` calls. -/
def execs : List Event → List (List CChar × List (Option (List CChar)))
  | [] => []
  | .execvp file argv :: tr => (file, argv) :: execs tr
  | _ :: tr => execs tr

@[simp] theorem execs_append (tr tr' : List Event) : execs (tr ++ tr') = execs tr ++ execs tr' := by
  induction tr with
  | nil => rfl
  | cons e tr ih => cases e <;> simp [execs, ih]

/-- The events of `chdir(dir)`. -/
def chdirEvents (os : Os) (tr : List Event) (dir : List CChar) : List Event :=
  if os.chdir tr dir then tr ++ [.chdir dir]
  else tr ++ [.chdir dir,
    .stderr (ascii "cd: no such file or directory: ".toList ++ dir ++ [chNewline])]

/-- The events of a child process that runs `cmd`. -/
def childEvents (os : Os) (tr : List Event) (cmd : Cmd) : List Event :=
  let tr := tr ++ [.execvp cmd.name cmd.vector]
  if os.execvp tr cmd.name then tr
  else tr ++ [.stderr (ascii "Error during execvp() call: ".toList ++ os.strerror tr ++
    [chNewline]), .childExit EXIT_FAILURE]

/-- The events up to the command after `cmd`. -/
def Os.after (os : Os) (tr : List Event) (cmd : Cmd) : List Event :=
  if cmd.name = nameCd then
    match cmd.argv with
    | [] => tr
    | dir :: _ => chdirEvents os tr dir
  else childEvents os (tr ++ [.fork]) cmd ++ [.waitpid]

theorem execChild_eq (os : Os) {cmd : Cmd} (h : cmd.argc = cmd.argv.length) (live : Int)
    (tr : List Event) : execChild os cmd live tr = pure (childEvents os tr cmd) := by
  simp only [execChild, addNameToArgv_run h, pure_bind, childEvents]
  split
  · rfl
  · rfl

theorem execCmd_cd (os : Os) {cmd : Cmd} (hcd : cmd.name = nameCd) (hdir : cmd.argv ≠ [])
    (tr : List Event) (live : Int) :
    (execCmd os cmd tr).run live = pure ((false, os.after tr cmd), live) := by
  obtain ⟨dir, rest, hargv⟩ := List.exists_cons_of_ne_nil hdir
  simp only [execCmd, Os.after, if_pos hcd, hargv, chdirEvents]
  split
  · rfl
  · rfl

theorem execCmd_child (os : Os) {cmd : Cmd} (h : cmd.argc = cmd.argv.length)
    (hcd : cmd.name ≠ nameCd) (hexit : cmd.name ≠ nameExit) {tr : List Event}
    (hfork : os.fork tr = true) (live : Int) :
    (execCmd os cmd tr).run live = pure ((false, os.after tr cmd), live) := by
  simp [execCmd, Os.after, if_neg hcd, if_neg hexit, hfork, execChild_eq os h]

/-- A command that `exec_cmds` goes on after is one `execvp` in a child process, unless it is a
    `cd`. -/
theorem execs_after (os : Os) {cmd : Cmd} (hcd : cmd.name ≠ nameCd) (tr : List Event) :
    execs (os.after tr cmd) = execs tr ++ [(cmd.name, cmd.vector)] := by
  rw [Os.after, if_neg hcd, childEvents]
  split
  · simp [execs]
  · simp [execs]

/-- The first of the slots that hold some commands. -/
theorem slots_cons {slots : List (Option Cmd)} {cmd : Cmd} (cmds : List Cmd)
    (h : slots.take (cmd :: cmds).length = (cmd :: cmds).map some) :
    ∃ rest, slots = some cmd :: rest ∧ rest.take cmds.length = cmds.map some := by
  cases slots with
  | nil => simp at h
  | cons c rest =>
      obtain ⟨hc, hrest⟩ := List.cons.inj h
      exact ⟨rest, by rw [hc], hrest⟩

end SysProg.Shell
