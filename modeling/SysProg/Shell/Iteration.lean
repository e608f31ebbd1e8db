import SysProg.Shell.ReadLine
import SysProg.Shell.Exec

set_option autoImplicit false

/-! # One iteration of the shell

`exec_cmds` goes through the commands of a line one by one and knows nothing of operators: a command
either lets it go on to the next one or ends it, as `exit` does, as a failing `fork` does, and as a
`cd` without its argument does. `Comes` says which commands it gets to; when the iteration ends, what
it returns and whether it reads an argument that is not there all follow from that. -/

namespace SysProg.Shell

/-! ## What `exec_cmds` gets to -/

/-- A `cd` without its argument. -/
def Cmd.LacksDir (cmd : Cmd) : Prop := cmd.name = nameCd ∧ cmd.argv = []

/-- After `cmd`, `exec_cmds` goes on to the next command. -/
def Os.GoesOn (os : Os) (tr : List Event) (cmd : Cmd) : Prop :=
  if cmd.name = nameCd then cmd.argv ≠ [] else cmd.name ≠ nameExit ∧ os.fork tr = true

/-- `exec_cmds` comes to a command with `P`. -/
def Comes (os : Os) (P : Cmd → Prop) : List Event → List Cmd → Prop
  | _, [] => False
  | tr, cmd :: cmds => P cmd ∨ (os.GoesOn tr cmd ∧ Comes os P (os.after tr cmd) cmds)

/-- What `exec_cmds` returns. -/
def execStatus (os : Os) : List Event → List Cmd → C Int
  | _, [] => pure 0
  | tr, cmd :: cmds =>
    if cmd.name = nameCd then
      if cmd.argv = [] then throw .undefined else execStatus os (os.after tr cmd) cmds
    else if cmd.name = nameExit then pure 1
    else if os.fork tr then execStatus os (os.after tr cmd) cmds
    else throw (.exit EXIT_FAILURE)

/-- The events of the commands `exec_cmds` runs, up to the one it returns at. -/
def Os.run (os : Os) : List Event → List Cmd → List Event
  | tr, [] => tr
  | tr, cmd :: cmds => if cmd.name = nameExit then tr else os.run (os.after tr cmd) cmds

/-- The loop of `exec_cmds` runs its commands and returns their status, with the heap as it was. -/
theorem execCmds_events (os : Os) (cmds : List Cmd) :
    ∀ (slots : List (Option Cmd)) (tr : List Event) (live : Int),
    slots.take cmds.length = cmds.map some → (∀ c ∈ cmds, c.argc = c.argv.length) →
    (execCmds os cmds.length slots tr).run live
      = (fun status => ((status, os.run tr cmds), live)) <$> execStatus os tr cmds := by
  induction cmds with
  | nil => intro slots tr live _ _; rfl
  | cons cmd cmds ih =>
      intro slots tr live hslots hargc
      obtain ⟨rest, rfl, hrest⟩ := slots_cons cmds hslots
      obtain ⟨hc, hcs⟩ := List.forall_mem_cons.1 hargc
      simp only [List.length_cons, execCmds, StateT.run_bind, execStatus, Os.run]
      -- a command after which the loop goes on leaves the rest to be run
      have hnext : (execCmd os cmd tr).run live = pure ((false, os.after tr cmd), live) →
          ((execCmd os cmd tr).run live >>= fun r =>
            (if r.1.1 = true then pure (1, r.1.2)
              else execCmds os cmds.length rest r.1.2 : Alloc _).run r.2)
            = (fun status => ((status, os.run (os.after tr cmd) cmds), live)) <$>
              execStatus os (os.after tr cmd) cmds := by
        intro hrun
        rw [hrun, pure_bind]
        exact ih rest (os.after tr cmd) live hrest hcs
      by_cases hcd : cmd.name = nameCd
      · have hexit : cmd.name ≠ nameExit := by rw [hcd]; decide
        rw [if_pos hcd, if_neg hexit]
        by_cases hdir : cmd.argv = []
        · simp [execCmd, hcd, hdir]
        · rw [if_neg hdir]
          exact hnext (execCmd_cd os hcd hdir tr live)
      · rw [if_neg hcd]
        by_cases hexit : cmd.name = nameExit
        · simp only [execCmd, if_neg hcd, if_pos hexit]
          rfl
        · rw [if_neg hexit, if_neg hexit]
          by_cases hfork : os.fork tr = true
          · rw [if_pos hfork]
            exact hnext (execCmd_child os hc hcd hexit hfork live)
          · simp [execCmd, hcd, hexit, hfork]

theorem execCmds_run (os : Os) (cmds : List Cmd) (slots : List (Option Cmd)) (tr : List Event)
    (live : Int) (hslots : slots.take cmds.length = cmds.map some)
    (hargc : ∀ c ∈ cmds, c.argc = c.argv.length) :
    ∃ tr', (execCmds os cmds.length slots tr).run live
      = (fun status => ((status, tr'), live)) <$> execStatus os tr cmds :=
  ⟨_, execCmds_events os cmds slots tr live hslots hargc⟩

/-- `exec_cmds` returns 0, unless it comes to a command it returns 1 at or stops at. -/
theorem execStatus_cases (os : Os) (tr : List Event) (cmds : List Cmd) :
    execStatus os tr cmds = pure 0 ∨ execStatus os tr cmds = pure 1 ∨
      execStatus os tr cmds = throw .undefined ∨
      execStatus os tr cmds = throw (.exit EXIT_FAILURE) := by
  induction cmds generalizing tr with
  | nil => exact Or.inl rfl
  | cons cmd cmds ih =>
      rw [execStatus]
      split_ifs
      · exact Or.inr (Or.inr (Or.inl rfl))
      · exact ih _
      · exact Or.inr (Or.inl rfl)
      · exact ih _
      · exact Or.inr (Or.inr (Or.inr rfl))

/-- It returns 1 exactly when it comes to a command named `exit`. -/
theorem execStatus_exit (os : Os) (tr : List Event) (cmds : List Cmd) :
    execStatus os tr cmds = pure 1 ↔ Comes os (fun cmd => cmd.name = nameExit) tr cmds := by
  induction cmds generalizing tr with
  | nil =>
      rw [execStatus, Comes, pure_inj]
      simp
  | cons cmd cmds ih =>
      rw [execStatus, Comes, Os.GoesOn]
      by_cases hcd : cmd.name = nameCd
      · have hexit : cmd.name ≠ nameExit := by rw [hcd]; decide
        rw [if_pos hcd, if_pos hcd]
        by_cases hdir : cmd.argv = []
        · simp [hdir, hexit]
        · rw [if_neg hdir, ih]
          simp [hdir, hexit]
      · rw [if_neg hcd, if_neg hcd]
        by_cases hexit : cmd.name = nameExit
        · simp [hexit]
        · by_cases hfork : os.fork tr = true
          · rw [if_neg hexit, if_pos hfork, ih]
            simp [hexit, hfork]
          · simp [hexit, hfork]

/-- It reads an argument that is not there exactly when it comes to a `cd` without one. -/
theorem execStatus_undefined (os : Os) (tr : List Event) (cmds : List Cmd) :
    execStatus os tr cmds = throw .undefined ↔ Comes os Cmd.LacksDir tr cmds := by
  have hne : (throw (.exit EXIT_FAILURE) : C Int) ≠ throw .undefined := by
    intro h
    cases h
  induction cmds generalizing tr with
  | nil => exact iff_of_false (fun h => throw_ne_pure _ _ h.symm) id
  | cons cmd cmds ih =>
      rw [execStatus, Comes, Os.GoesOn, Cmd.LacksDir]
      by_cases hcd : cmd.name = nameCd
      · rw [if_pos hcd, if_pos hcd]
        by_cases hdir : cmd.argv = []
        · simp [hcd, hdir]
        · rw [if_neg hdir]
          exact (ih _).trans (by simp [hdir])
      · rw [if_neg hcd, if_neg hcd]
        by_cases hexit : cmd.name = nameExit
        · rw [if_pos hexit]
          exact iff_of_false (fun h => throw_ne_pure _ _ h.symm)
            (by simp [hexit, show nameExit ≠ nameCd by decide])
        · by_cases hfork : os.fork tr = true
          · rw [if_neg hexit, if_pos hfork]
            exact (ih _).trans (by simp [hcd, hexit, hfork])
          · rw [if_neg hexit, if_neg hfork]
            exact iff_of_false hne (by simp [hcd, hfork])

theorem execStatus_ne_exit (os : Os) (hfork : ∀ tr, os.fork tr = true) (tr : List Event)
    (cmds : List Cmd) : execStatus os tr cmds ≠ throw (.exit EXIT_FAILURE) := by
  induction cmds generalizing tr with
  | nil => exact fun h => throw_ne_pure _ _ h.symm
  | cons cmd cmds ih =>
      rw [execStatus, if_pos (hfork tr)]
      split_ifs
      · intro h
        cases h
      · exact ih _
      · exact fun h => throw_ne_pure _ _ h.symm
      · exact ih _

/-! ## The iteration -/

theorem freeCmds_run (cmds : List Cmd) : ∀ (slots : List (Option Cmd)) (live : Int),
    slots.take cmds.length = cmds.map some → (∀ c ∈ cmds, c.argc = c.argv.length) →
    (freeCmds cmds.length slots).run live = pure ((), live - blocksOf cmds) := by
  induction cmds with
  | nil => intro slots live _ _; simp [freeCmds]
  | cons cmd cmds ih =>
      intro slots live hslots hargc
      obtain ⟨rest, rfl, hrest⟩ := slots_cons cmds hslots
      obtain ⟨hc, hcs⟩ := List.forall_mem_cons.1 hargc
      simp only [List.length_cons, freeCmds, StateT.run_bind, cmdFree_run hc, pure_bind,
        ih rest _ hrest hcs, blocksOf_cons, pure_inj, Prod.mk.injEq, true_and]
      ring

/-- The commands of a line. -/
def lineCommands (line : List CChar) : List Cmd := commands (tokens (cstr line))

/-- A line and its terminator, up to the first NUL. -/
theorem append_nul_eq (line : List CChar) :
    ∃ rest, line ++ [chNul] = cstr line ++ chNul :: rest := by
  induction line with
  | nil => exact ⟨[], rfl⟩
  | cons c line ih =>
      by_cases hc : c = chNul
      · exact ⟨line ++ [chNul], by rw [cstr, if_pos hc, hc]; rfl⟩
      · obtain ⟨rest, hrest⟩ := ih
        exact ⟨rest, by rw [cstr, if_neg hc, List.cons_append, hrest]; rfl⟩

/-- `parse_line` on a line and its terminator sees the line up to its first NUL. -/
theorem parseLine_line (line : List CChar) (live : Int) :
    ∃ p : Pair (List CChar),
      (parseLine (line ++ [chNul])).run live
        = pure (p, live + 1 + p.first.length + if p.first = [] then 0 else 1) ∧
      p.first.map cstr = tokens (cstr line) ∧ p.second = p.first.length := by
  obtain ⟨rest, hnul⟩ := append_nul_eq line
  rw [hnul]
  exact parseLine_run (cstr_nulFree line) rest live

@[simp] theorem freeUnless_run (isNull : Bool) (live : Int) :
    (freeUnless isNull).run live = pure ((), live - if isNull then 0 else 1) := by
  cases isNull <;> simp [freeUnless]

/-- The events when a line has been read. -/
def prompted (tr : List Event) : List Event := tr ++ [.stdout (ascii ['$', '>', ' '])]

/-- What an iteration returns that reads `line`. -/
def lineStatus (os : Os) (tr : List Event) (line : List CChar) : C Int :=
  if line.length < lineLimit then execStatus os (prompted tr) (lineCommands line)
  else throw .undefined

/-- The events after it. -/
def lineEvents (os : Os) (tr : List Event) (line : List CChar) : List Event :=
  os.run (prompted tr) (lineCommands line)

theorem lineStatus_fits {os : Os} {tr : List Event} {line : List CChar}
    (hfit : line.length < lineLimit) :
    lineStatus os tr line = execStatus os (prompted tr) (lineCommands line) := if_pos hfit

theorem lineStatus_long {os : Os} {tr : List Event} {line : List CChar}
    (hlong : ¬ line.length < lineLimit) : lineStatus os tr line = throw .undefined := if_neg hlong

/-- One iteration of the shell loop runs the commands of one line and leaves as many blocks
    allocated as it found. -/
theorem shellStep_events (os : Os) (tr : List Event) (stdin : List CChar) (live : Int) :
    (shellStep os tr stdin).run live
      = (fun status => ((status, lineEvents os tr (lineText false chS stdin).1,
          os.stdin (lineEvents os tr (lineText false chS stdin).1) (lineText false chS stdin).2),
          live)) <$> lineStatus os tr (lineText false chS stdin).1 := by
  by_cases hfit : LineFits stdin
  case neg =>
    rw [lineStatus_long hfit]
    simp only [shellStep, StateT.run_bind, readLine_run, if_neg hfit]
    rfl
  obtain ⟨p, hline, htok, hlen⟩ := parseLine_line (lineText false chS stdin).1 (live + 1)
  have hargs : p.second = ((p.first.map cstr).length : Int) := by rw [hlen, List.length_map]
  have hnat : p.second.toNat = (p.first.map cstr).length := by rw [hargs, Int.toNat_natCast]
  simp only [shellStep, StateT.run_bind, readLine_fits hfit, pure_bind, hline,
    lineStatus_fits hfit, lineEvents]
  rw [lineCommands, ← htok]
  cases htoks : p.first.map cstr with
  | nil =>
      have hfirst : p.first = [] := List.map_eq_nil_iff.1 htoks
      have hzero : p.second = 0 := by rw [hlen, hfirst]; rfl
      simp [hfirst, hzero, parseCmds, execCmds, execStatus, commands, freeCmds, freeStrings,
        prompted, Os.run]
  | cons arg args =>
      have hne : p.first ≠ [] := by
        rintro hnil
        rw [hnil] at htoks
        cases htoks
      obtain ⟨q, hcmds, hslots, hcount⟩ := parseCmds_run arg args
        (live + 1 + 1 + p.first.length + if p.first = [] then 0 else 1)
      have hqnat : q.second.toNat = (commands (arg :: args)).length := by
        rw [hcount, Int.toNat_natCast]
      rw [hqnat] at hslots
      have hargc := commands_argc (arg :: args)
      rw [htoks] at hargs hnat
      have hexec := execCmds_events os _ q.first (prompted tr) (live + 1 + 1 + p.first.length
          + (if p.first = [] then 0 else 1) + 2 + blocksOf (commands (arg :: args))) hslots hargc
      simp only [prompted] at hexec
      simp only [hargs, hcmds, pure_bind, Option.map_some, Option.getD_some, hqnat, hexec, prompted]
      rw [bind_map_left, map_eq_pure_bind]
      congr 1
      funext status
      simp only [freeCmds_run _ _ _ hslots hargc, pure_bind, freeUnless_run, free_run]
      have hcnt : p.first.length = (arg :: args).length := by rw [← htoks, List.length_map]
      rw [Int.toNat_natCast, freeStrings_run, pure_bind, StateT.run_pure, pure_inj, Prod.mk.injEq,
        hcnt, if_neg hne]
      refine ⟨rfl, ?_⟩
      simp only [Option.isNone_some, List.isEmpty_cons, Bool.false_eq_true, if_false]
      ring

theorem shellStep_run (os : Os) (tr : List Event) (stdin : List CChar) (live : Int) :
    ∃ tr' rest, (shellStep os tr stdin).run live
      = (fun status => ((status, tr', rest), live)) <$>
          lineStatus os tr (lineText false chS stdin).1 :=
  ⟨_, _, shellStep_events os tr stdin live⟩

theorem readCommands_eq {stdin : List CChar} (hfit : LineFits stdin) :
    readCommands stdin = pure ((lineCommands (lineText false chS stdin).1).map some) := by
  obtain ⟨p, hline, htok, hlen⟩ := parseLine_line (lineText false chS stdin).1 (0 + 1)
  have hargs : p.second = ((p.first.map cstr).length : Int) := by rw [hlen, List.length_map]
  simp only [readCommands, readLine_fits hfit, pure_bind, hline, hargs]
  rw [lineCommands, ← htok]
  cases p.first.map cstr with
  | nil => rfl
  | cons arg args =>
      obtain ⟨q, hcmds, hslots, -⟩ := parseCmds_run arg args
        (0 + 1 + 1 + p.first.length + if p.first = [] then 0 else 1)
      simp only [hcmds, pure_bind, Option.map_some, Option.getD_some, hslots]

/-- The commands of a line that `read_line` can read. -/
theorem readCommands_iff {stdin : List CChar} (hfit : LineFits stdin) {cmds : List Cmd} :
    readCommands stdin = pure (cmds.map some)
      ↔ cmds = lineCommands (lineText false chS stdin).1 := by
  rw [readCommands_eq hfit, pure_inj, (List.map_injective_iff.2 (Option.some_injective Cmd)).eq_iff]
  exact eq_comm

/-- A line that does not fit has none. -/
theorem readCommands_long {stdin : List CChar} (hfit : ¬ LineFits stdin) (cmds : List Cmd) :
    readCommands stdin ≠ pure (cmds.map some) := by
  have hrun : (readLine stdin).run 0 = throw .undefined := by rw [readLine_run, if_neg hfit]
  rw [readCommands, hrun]
  exact throw_ne_pure _ _

/-! ## When a line ends the shell -/

/-- The next line of `stdin` ends the shell: `exec_cmds` returns a non-zero status for it, and
    `shell_loop` returns. -/
def EndsShell (os : Os) (tr : List Event) (stdin : List CChar) (live : Int) : Prop :=
  ∃ status r live', (shellStep os tr stdin).run live = pure ((status, r), live') ∧ status ≠ 0

theorem endsShell_iff (os : Os) (tr : List Event) {stdin : List CChar} (hfit : LineFits stdin)
    (live : Int) :
    EndsShell os tr stdin live ↔ Comes os (fun cmd => cmd.name = nameExit) (prompted tr)
      (lineCommands (lineText false chS stdin).1) := by
  obtain ⟨tr', rest, hrun⟩ := shellStep_run os tr stdin live
  rw [lineStatus_fits hfit] at hrun
  rw [← execStatus_exit]
  constructor
  · rintro ⟨status, r, live', hrun', hne⟩
    rw [hrun] at hrun'
    rcases execStatus_cases os (prompted tr) (lineCommands (lineText false chS stdin).1) with
      h | h | h | h
    · rw [h, map_pure, pure_inj] at hrun'
      simp only [Prod.mk.injEq] at hrun'
      exact absurd hrun'.1.1.symm hne
    · exact h
    · rw [h, throw_map] at hrun'
      exact absurd hrun' (throw_ne_pure _ _)
    · rw [h, throw_map] at hrun'
      exact absurd hrun' (throw_ne_pure _ _)
  · intro h
    exact ⟨1, _, live, by rw [hrun, h]; rfl, by decide⟩

/-- **When the shell exits on a lone `exit` only**: exactly when the line fits, and it is one command
    or `exec_cmds` comes to no `exit` in it. -/
theorem exits_only_alone (os : Os) (tr : List Event) (stdin : List CChar) (live : Int) :
    (∃ cmds : List Cmd, readCommands stdin = pure (cmds.map some) ∧
      (EndsShell os tr stdin live ↔ ∃ cmd, cmds = [cmd] ∧ cmd.name = nameExit)) ↔
    LineFits stdin ∧ ∀ cmds : List Cmd, readCommands stdin = pure (cmds.map some) →
      cmds.length = 1 ∨ ¬ Comes os (fun cmd => cmd.name = nameExit) (prompted tr) cmds := by
  by_cases hfit : LineFits stdin
  case neg =>
    refine iff_of_false ?_ fun h => hfit h.1
    rintro ⟨cmds, hread, -⟩
    exact readCommands_long hfit cmds hread
  simp only [readCommands_iff hfit, exists_eq_left, forall_eq, endsShell_iff os tr hfit, hfit,
    true_and]
  generalize lineCommands (lineText false chS stdin).1 = cmds
  constructor
  · intro hiff
    by_cases hcomes : Comes os (fun cmd => cmd.name = nameExit) (prompted tr) cmds
    · obtain ⟨cmd, rfl, -⟩ := hiff.1 hcomes
      exact Or.inl rfl
    · exact Or.inr hcomes
  · rintro (hone | hcomes)
    · obtain ⟨cmd, rfl⟩ := List.length_eq_one_iff.1 hone
      simp [Comes]
    · refine iff_of_false hcomes ?_
      rintro ⟨cmd, rfl, hname⟩
      exact hcomes (Or.inl hname)

/-- The line `exit | a` ends the shell. -/
theorem exits_in_pipeline :
    ∃ cmds : List Cmd,
      readCommands (ascii ['e', 'x', 'i', 't', ' ', '|', ' ', 'a', '\n']) = pure (cmds.map some) ∧
      ¬ (EndsShell .willing [] (ascii ['e', 'x', 'i', 't', ' ', '|', ' ', 'a', '\n']) 0 ↔
        ∃ cmd, cmds = [cmd] ∧ cmd.name = nameExit) := by
  refine ⟨_, readCommands_eq (by decide), ?_⟩
  rw [endsShell_iff .willing [] (by decide)]
  intro hiff
  obtain ⟨cmd, hcmds, -⟩ := hiff.1 (Or.inl (by decide))
  have hone : (lineCommands (lineText false chS
      (ascii ['e', 'x', 'i', 't', ' ', '|', ' ', 'a', '\n'])).1).length = 1 := by
    rw [hcmds]
    rfl
  exact absurd hone (by decide)

/-! ## Arguments that are not there -/

/-- **When no missing argument is used**: exactly when the line fits and `exec_cmds` comes to no `cd`
    without its argument. -/
theorem arguments_present (os : Os) (tr : List Event) (stdin : List CChar) :
    ((∃ cmds : List Cmd, readCommands stdin = pure (cmds.map some)) ∧
      execLine os tr stdin ≠ throw .undefined) ↔
    LineFits stdin ∧ ∀ cmds : List Cmd, readCommands stdin = pure (cmds.map some) →
      ¬ Comes os Cmd.LacksDir tr cmds := by
  by_cases hfit : LineFits stdin
  case neg =>
    refine iff_of_false ?_ fun h => hfit h.1
    rintro ⟨⟨cmds, hread⟩, -⟩
    exact readCommands_long hfit cmds hread
  simp only [readCommands_iff hfit, exists_eq, forall_eq, hfit, true_and]
  refine not_congr ?_
  have hargc := commands_argc (tokens (cstr (lineText false chS stdin).1))
  rw [← lineCommands] at hargc
  obtain ⟨tr', hrun⟩ := execCmds_run os (lineCommands (lineText false chS stdin).1)
    ((lineCommands (lineText false chS stdin).1).map some) tr 0
    (by rw [← List.length_map (f := some), List.take_length]) hargc
  rw [← execStatus_undefined]
  simp only [execLine, readCommands_eq hfit, pure_bind, List.length_map, hrun]
  cases execStatus os tr (lineCommands (lineText false chS stdin).1) with
  | error e =>
      constructor
      · intro h
        cases h
        rfl
      · intro h
        cases h
        rfl
  | ok status => exact iff_of_false (fun h => by cases h) (fun h => by cases h)

/-- The line `cd`: its only command has no argument, and `exec_cmds` reads `argv[0]`. -/
theorem arguments_missing_cd :
    readCommands (ascii ['c', 'd', '\n']) = pure [some (.ofName nameCd false)] ∧
      execLine .willing [] (ascii ['c', 'd', '\n']) = throw .undefined := by
  have hread : readCommands (ascii ['c', 'd', '\n']) = pure [some (.ofName nameCd false)] := by
    rw [readCommands_eq (by decide)]
    rfl
  refine ⟨hread, ?_⟩
  rw [execLine, hread]
  rfl

/-! ## The heap -/

/-- **Each iteration is heap-neutral**: whenever it ends, as many blocks are allocated as at its
    start; and it ends, unless the line does not fit or `exec_cmds` comes to a `cd` without its
    argument. -/
theorem shellStep_heap_neutral (os : Os) (hfork : ∀ tr, os.fork tr = true) (tr : List Event)
    (stdin : List CChar) (live : Int) :
    (∀ r live', (shellStep os tr stdin).run live = pure (r, live') → live' = live) ∧
      (LineFits stdin → ∃ cmds : List Cmd, readCommands stdin = pure (cmds.map some) ∧
        (¬ Comes os Cmd.LacksDir (prompted tr) cmds →
          ∃ r, (shellStep os tr stdin).run live = pure (r, live))) := by
  obtain ⟨tr', rest, hrun⟩ := shellStep_run os tr stdin live
  refine ⟨?_, fun hfit => ⟨_, readCommands_eq hfit, ?_⟩⟩
  · intro r live' hrun'
    rw [hrun] at hrun'
    cases hst : lineStatus os tr (lineText false chS stdin).1 with
    | error e =>
        rw [hst] at hrun'
        cases hrun'
    | ok status =>
        rw [hst] at hrun'
        cases hrun'
        rfl
  · intro hdir
    rw [hrun, lineStatus_fits hfit]
    rcases execStatus_cases os (prompted tr) (lineCommands (lineText false chS stdin).1) with
      h | h | h | h
    · exact ⟨_, by rw [h]; rfl⟩
    · exact ⟨_, by rw [h]; rfl⟩
    · exact absurd ((execStatus_undefined os _ _).1 h) hdir
    · exact absurd h (execStatus_ne_exit os hfork _ _)

/-- The line `"a |`, with its quote open. -/
theorem shellStep_heap_neutral_open :
    (∀ r live', (shellStep .willing [] (ascii ['"', 'a', ' ', '|', '\n'])).run 0 = pure (r, live') →
        live' = 0) ∧
      (LineFits (ascii ['"', 'a', ' ', '|', '\n']) →
        ∃ cmds : List Cmd, readCommands (ascii ['"', 'a', ' ', '|', '\n']) = pure (cmds.map some) ∧
          (¬ Comes .willing Cmd.LacksDir (prompted []) cmds →
            ∃ r, (shellStep .willing [] (ascii ['"', 'a', ' ', '|', '\n'])).run 0 = pure (r, 0))) :=
  shellStep_heap_neutral .willing (fun _ => rfl) [] _ 0

end SysProg.Shell
