import SysProg.Shell.Session
import SysProg.Shell.QuotedCommand

set_option autoImplicit false

/-! # Scripts (`2/solution`)

From the bytes of an input to the calls of the operating system. Whenever the shell ends, it has made
one call for each command of its input up to the first `exit`, in order. On a script of quoted words
those commands are known: each line is executed with the words that were quoted in it. -/

namespace SysProg.Shell

/-! ## The calls of a session -/

/-- An `execvp` or a `chdir`. -/
def Event.isCall : Event → Bool
  | .execvp _ _ => true
  | .chdir _ => true
  | _ => false

/-- The `execvp` and `chdir` calls among the events. -/
def calls (tr : List Event) : List Event := tr.filter Event.isCall

@[simp] theorem calls_append (tr tr' : List Event) : calls (tr ++ tr') = calls tr ++ calls tr' :=
  List.filter_append tr tr'

@[simp] theorem calls_prompted (tr : List Event) : calls (prompted tr) = calls tr := by
  simp [prompted, calls, Event.isCall]

/-- The call that runs a command. -/
def Cmd.call (cmd : Cmd) : Event :=
  if cmd.name = nameCd then .chdir (cmd.argv.headD []) else .execvp cmd.name cmd.vector

theorem calls_after (os : Os) {cmd : Cmd} (hdir : ¬ cmd.LacksDir) (tr : List Event) :
    calls (os.after tr cmd) = calls tr ++ [cmd.call] := by
  rw [Os.after, Cmd.call]
  by_cases hcd : cmd.name = nameCd
  · rw [if_pos hcd, if_pos hcd]
    cases hargv : cmd.argv with
    | nil => exact absurd ⟨hcd, hargv⟩ hdir
    | cons dir rest =>
        show calls (chdirEvents os tr dir) = calls tr ++ [.chdir dir]
        rw [chdirEvents]
        split
        · rw [calls_append]
          rfl
        · rw [calls_append]
          rfl
  · rw [if_neg hcd, if_neg hcd, calls_append, childEvents]
    split
    · rw [calls_append, calls_append, List.append_assoc, List.append_assoc]
      rfl
    · rw [calls_append, calls_append, calls_append, List.append_assoc, List.append_assoc,
        List.append_assoc]
      rfl

/-- The commands up to the first `exit`. -/
def untilExit (cmds : List Cmd) : List Cmd := cmds.takeWhile fun cmd => cmd.name != nameExit

theorem untilExit_append {cmds : List Cmd} (h : ∀ cmd ∈ cmds, cmd.name ≠ nameExit)
    (rest : List Cmd) : untilExit (cmds ++ rest) = cmds ++ untilExit rest :=
  List.takeWhile_append_of_pos fun cmd hcmd => bne_iff_ne.2 (h cmd hcmd)

/-- When `exec_cmds` returns, it has made the calls of its commands up to the first `exit`, and its
    status says whether there is one. -/
theorem calls_run (os : Os) (cmds : List Cmd) : ∀ (tr : List Event) {status : Int},
    execStatus os tr cmds = pure status →
    calls (os.run tr cmds) = calls tr ++ (untilExit cmds).map Cmd.call ∧
      (status = 0 → ∀ cmd ∈ cmds, cmd.name ≠ nameExit) ∧
      (status ≠ 0 → ∀ rest, untilExit (cmds ++ rest) = untilExit cmds) := by
  induction cmds with
  | nil =>
      intro tr status hst
      rw [execStatus, pure_inj] at hst
      exact ⟨(List.append_nil _).symm, by simp, fun hne => absurd hst.symm hne⟩
  | cons cmd cmds ih =>
      intro tr status hst
      rw [execStatus] at hst
      -- a command after which the loop goes on
      have hnext : cmd.name ≠ nameExit → ¬ cmd.LacksDir →
          execStatus os (os.after tr cmd) cmds = pure status →
          calls (os.run tr (cmd :: cmds)) = calls tr ++ (untilExit (cmd :: cmds)).map Cmd.call ∧
            (status = 0 → ∀ c ∈ cmd :: cmds, c.name ≠ nameExit) ∧
            (status ≠ 0 → ∀ rest, untilExit (cmd :: cmds ++ rest) = untilExit (cmd :: cmds)) := by
        intro hexit hdir hrest
        obtain ⟨hcalls, hzero, hstop⟩ := ih (os.after tr cmd) hrest
        have hhead : ∀ rest, untilExit (cmd :: rest) = cmd :: untilExit rest := fun rest =>
          List.takeWhile_cons_of_pos (bne_iff_ne.2 hexit)
        refine ⟨?_, fun h => List.forall_mem_cons.2 ⟨hexit, hzero h⟩, fun h rest => ?_⟩
        · rw [Os.run, if_neg hexit, hcalls, calls_after os hdir, hhead, List.map_cons,
            List.append_assoc, List.singleton_append]
        · rw [List.cons_append, hhead, hhead, hstop h]
      by_cases hcd : cmd.name = nameCd
      · rw [if_pos hcd] at hst
        by_cases hdir : cmd.argv = []
        · rw [if_pos hdir] at hst
          exact absurd hst (throw_ne_pure _ _)
        · rw [if_neg hdir] at hst
          exact hnext (by rw [hcd]; decide) (fun h => hdir h.2) hst
      · rw [if_neg hcd] at hst
        by_cases hexit : cmd.name = nameExit
        · rw [if_pos hexit, pure_inj] at hst
          have hempty : ∀ rest, untilExit (cmd :: rest) = [] := fun rest =>
            List.takeWhile_cons_of_neg (by simp [hexit])
          refine ⟨by rw [Os.run, if_pos hexit, hempty]; simp, fun h => ?_, fun _ rest => ?_⟩
          · rw [h] at hst
            exact absurd hst (by decide)
          · rw [List.cons_append, hempty, hempty]
        · rw [if_neg hexit] at hst
          by_cases hfork : os.fork tr = true
          · rw [if_pos hfork] at hst
            exact hnext hexit (fun h => hcd h.1) hst
          · rw [if_neg hfork] at hst
            exact absurd hst (throw_ne_pure _ _)

/-- A session that ends by `exit` has made the calls of the commands before it. -/
theorem calls_runLines (os : Os) (lines : List (List CChar)) : ∀ {tr tr' : List Event},
    runLines os tr lines = .exited tr' →
    calls tr' = calls tr ++ (untilExit (lines.flatMap lineCommands)).map Cmd.call := by
  induction lines with
  | nil =>
      intro tr tr' hrun
      cases hrun
  | cons line lines ih =>
      intro tr tr' hrun
      rw [runLines] at hrun
      cases hst : lineStatus os tr line with
      | error e =>
          rw [hst] at hrun
          cases hrun
      | ok status =>
          have hfit : line.length < lineLimit := by
            by_contra hlong
            rw [lineStatus_long hlong] at hst
            cases hst
          rw [lineStatus_fits hfit] at hst
          obtain ⟨hcalls, hzero, hstop⟩ := calls_run os _ _ hst
          rw [calls_prompted] at hcalls
          simp only [lineStatus_fits hfit, hst, lineEvents] at hrun
          rw [List.flatMap_cons]
          by_cases hne : status ≠ 0
          · rw [if_pos hne, Session.exited.injEq] at hrun
            rw [← hrun, hcalls, hstop hne]
          · rw [if_neg hne] at hrun
            rw [ih hrun, hcalls, untilExit_append (hzero (not_not.1 hne)), List.map_append,
              ← List.append_assoc, ← List.append_nil (lineCommands line),
              untilExit_append (hzero (not_not.1 hne))]
            simp [untilExit]

/-- The commands of all the lines of a stream, in order. -/
def streamCommands (stdin : List CChar) : List Cmd := (streamLines stdin).flatMap lineCommands

/-- More iterations than the loop needs change nothing. -/
theorem shellLoop_mono (os : Os) (fuel more : Nat) : ∀ {tr : List Event} {stdin : List CChar}
    {live : Int} {r : List Event × Int}, (shellLoop os fuel tr stdin).run live = pure r →
    (shellLoop os (fuel + more) tr stdin).run live = pure r := by
  induction fuel with
  | zero =>
      intro tr stdin live r h
      exact absurd h (throw_ne_pure _ _)
  | succ fuel ih =>
      intro tr stdin live r h
      rw [Nat.add_right_comm]
      simp only [shellLoop, StateT.run_bind, shellStep_events] at h ⊢
      cases hst : lineStatus os tr (lineText false chS stdin).1 with
      | error e =>
          rw [hst] at h
          cases h
      | ok status =>
          rw [hst] at h
          by_cases hzero : status = 0
          · subst hzero
            exact ih h
          · rw [← h]
            show (if status ≠ 0 then pure _ else _ : Alloc (List Event)).run live
              = (if status ≠ 0 then pure _ else _ : Alloc (List Event)).run live
            rw [if_pos hzero, if_pos hzero]

/-- When `main` returns, its session has ended by `exit`. -/
theorem main_exited {os : Os} (hstdin : os.LeavesStdin) {fuel : Nat} {stdin : List CChar}
    {tr : List Event} (h : main os fuel stdin = pure tr) :
    ∃ tr', runLines os [] (streamLines stdin) = .exited tr' ∧
      tr = tr' ++ [.stdout (leakReport (0 + os.libcBlocks tr'))] := by
  rw [main] at h
  cases hloop : (shellLoop os fuel [] stdin).run 0 with
  | error e =>
      rw [hloop] at h
      cases h
  | ok r =>
      rw [hloop] at h
      have hmore := shellLoop_mono os fuel (streamLines stdin).length hloop
      rw [Nat.add_comm, shellLoop_run os hstdin] at hmore
      cases hrun : runLines os [] (streamLines stdin) with
      | exited tr' =>
          rw [hrun, Session.result, pure_inj] at hmore
          subst hmore
          exact ⟨tr', rfl, (Except.ok.inj h).symm⟩
      | stopped e =>
          rw [hrun] at hmore
          exact absurd hmore (throw_ne_pure _ _)
      | atEnd tr' =>
          rw [hrun] at hmore
          exact absurd hmore (throw_ne_pure _ _)

/-- **The calls are the commands**: whenever `main` returns, on any input that its children leave alone
    and whatever else the operating system answers, it has made one `execvp` or `chdir` for each command
    of its input up to the first `exit`, in order, and no other. -/
theorem main_calls (os : Os) (hstdin : os.LeavesStdin) (fuel : Nat) (stdin : List CChar)
    (tr : List Event) (h : main os fuel stdin = pure tr) :
    calls tr = (untilExit (streamCommands stdin)).map Cmd.call := by
  obtain ⟨tr', hrun, rfl⟩ := main_exited hstdin h
  rw [calls_append, calls_runLines os _ hrun, streamCommands]
  simp [calls, Event.isCall]

/-- The stream `ls⏎exit⏎`. -/
theorem main_calls_ls :
    calls [.stdout (ascii ['$', '>', ' ']), .fork,
        .execvp (ascii ['l', 's']) [some (ascii ['l', 's']), none], .waitpid,
        .stdout (ascii ['$', '>', ' ']), .stdout (leakReport 3)]
      = (untilExit (streamCommands (ascii ['l', 's', '\n', 'e', 'x', 'i', 't', '\n']))).map
          Cmd.call :=
  main_calls .willing (fun _ _ => rfl) 2 _ _ (by
    rw [main]
    simp only [shellLoop, StateT.run_bind, shellStep_events]
    rfl)

/-! ## Lines of quoted words -/

/-- `read_line` stores all of `s`, wherever it begins, and its flag goes from `quote` to `quote'`. -/
def Stores (quote : Bool) (s : List CChar) (quote' : Bool) : Prop :=
  ∀ prev ys, lineText quote prev (s ++ ys) = (s ++ (lineText quote' (s.getLastD prev) ys).1,
    (lineText quote' (s.getLastD prev) ys).2)

theorem Stores.append {quote quote' quote'' : Bool} {s t : List CChar} (hs : Stores quote s quote')
    (ht : Stores quote' t quote'') : Stores quote (s ++ t) quote'' := by
  intro prev ys
  have hlast : (s ++ t).getLastD prev = t.getLastD (s.getLastD prev) := by
    cases t with
    | nil => simp
    | cons c t => simp [List.getLastD_eq_getLast?, List.getLast?_cons]
  rw [List.append_assoc, hs, ht, hlast, List.append_assoc]

theorem stores_inert {s : List CChar} (hs : ∀ c ∈ s, Inert c) (quote : Bool) :
    Stores quote s quote :=
  fun prev ys => lineText_inert quote prev s ys hs

theorem stores_dquote (quote : Bool) : Stores quote [chDquote] (!quote) :=
  fun _ _ => rfl

/-- Between double quotes a newline is stored as everything else is. -/
theorem stores_quoted {s : List CChar} (hs : ∀ c ∈ s, c ≠ chDquote ∧ isEof c = false) :
    Stores true s true := by
  induction s with
  | nil => exact fun _ _ => rfl
  | cons c s ih =>
      intro prev ys
      obtain ⟨⟨hd, he⟩, hs⟩ := List.forall_mem_cons.1 hs
      have hact : readAct true prev c = .store true := by simp [readAct, hd, he]
      rw [List.cons_append, lineText, hact, List.getLastD_cons]
      simp only [ih hs c ys, List.cons_append]

/-- A word as it is written in a script: between single quotes or between double ones. `read_line`
    knows of the double ones only. -/
inductive Written : List CChar → List CChar → Prop where
  | single {w : List CChar} (hs : chSquote ∉ w) (hw : ∀ c ∈ w, Inert c) :
      Written w (chSquote :: w ++ [chSquote])
  | double {w : List CChar} (hw : ∀ c ∈ w, c ≠ chDquote ∧ isEof c = false) :
      Written w (chDquote :: escapeDouble w ++ [chDquote])

/-- A line of written words, with blanks between them. -/
inductive WrittenLine : List (List CChar) → List CChar → Prop where
  | one {w t : List CChar} (h : Written w t) : WrittenLine [w] t
  | cons {w t b t' : List CChar} {ws : List (List CChar)} (h : Written w t)
      (hb : ∀ c ∈ b, c = chSpace ∨ c = chTab) (hne : b ≠ []) (h' : WrittenLine ws t') :
      WrittenLine (w :: ws) (t ++ b ++ t')

theorem Written.quoting {w t : List CChar} (h : Written w t) : Quoting w t := by
  cases h with
  | single hs _ => exact .single hs
  | double _ => exact .double w

theorem WrittenLine.ne_nil {ws : List (List CChar)} {t : List CChar} (h : WrittenLine ws t) :
    ws ≠ [] := by
  cases h <;> simp

theorem WrittenLine.quotedLine {ws : List (List CChar)} {t : List CChar} (h : WrittenLine ws t) :
    QuotedLine ws t := by
  induction h with
  | one h => exact .one h.quoting
  | cons h hb hne h' ih => exact .cons h.quoting hb hne h'.ne_nil ih

theorem mem_escapeDouble {w : List CChar} {c : CChar} (h : c ∈ escapeDouble w) :
    c = chBackslash ∨ c ∈ w := by
  induction w with
  | nil => exact Or.inr h
  | cons d w ih =>
      rw [escapeDouble] at h
      split at h
      · simp only [List.mem_cons] at h ⊢
        tauto
      · simp only [List.mem_cons] at h ⊢
        tauto

theorem Written.stores {w t : List CChar} (h : Written w t) : Stores false t false := by
  cases h with
  | single hs hw =>
      refine stores_inert (fun c hc => ?_) false
      rcases List.mem_append.1 hc with hc | hc
      · rcases List.mem_cons.1 hc with rfl | hc
        · exact ⟨by decide, by decide, by decide⟩
        · exact hw c hc
      · rw [List.mem_singleton.1 hc]
        exact ⟨by decide, by decide, by decide⟩
  | double hw =>
      have hin : ∀ c ∈ escapeDouble w, c ≠ chDquote ∧ isEof c = false := by
        intro c hc
        rcases mem_escapeDouble hc with rfl | hc
        · exact ⟨by decide, by decide⟩
        · exact hw c hc
      exact ((stores_dquote false).append (stores_quoted hin)).append (stores_dquote true)

theorem WrittenLine.stores {ws : List (List CChar)} {t : List CChar} (h : WrittenLine ws t) :
    Stores false t false := by
  induction h with
  | one h => exact h.stores
  | @cons w t b t' ws h hb hne h' ih =>
      have hblank : ∀ c ∈ b, Inert c := fun c hc => by
        rcases hb c hc with rfl | rfl <;> exact ⟨by decide, by decide, by decide⟩
      exact (h.stores.append (stores_inert hblank false)).append ih

theorem Written.getLastD {w t : List CChar} (h : Written w t) (prev : CChar) :
    t.getLastD prev ≠ chBackslash := by
  cases h with
  | single _ _ => simp only [List.getLastD_concat]; decide
  | double _ => simp only [List.getLastD_concat]; decide

theorem WrittenLine.getLastD {ws : List (List CChar)} {t : List CChar} (h : WrittenLine ws t) :
    ∀ prev, t.getLastD prev ≠ chBackslash := by
  induction h with
  | one h => exact h.getLastD
  | @cons w t b t' ws h hb hne h' ih =>
      intro prev
      have hlast : (t ++ b ++ t').getLastD prev = t'.getLastD ((t ++ b).getLastD prev) := by
        cases t' with
        | nil => simp
        | cons c t' => simp [List.getLastD_eq_getLast?, List.getLast?_cons]
      rw [hlast]
      exact ih _

/-- A line of written words is read as one line. -/
theorem lineText_writtenLine {ws : List (List CChar)} {t : List CChar} (h : WrittenLine ws t)
    (rest : List CChar) : lineText false chS (t ++ chNewline :: rest) = (t, rest) := by
  have hstop : readAct false (t.getLastD chS) chNewline = .stop := by
    have hprev := h.getLastD chS
    simp only [readAct, hprev]
    decide
  rw [h.stores, lineText, hstop]
  simp

/-! ## The script -/

/-- The command of a line of words. -/
def Cmd.ofWords (w : List CChar) (ws : List (List CChar)) : Cmd :=
  { name := w, argv := ws, argc := ws.length, special := false }

/-- A script: lines of written words, each without operators and short enough, and a line `exit`. -/
inductive Script : List Cmd → List CChar → Prop where
  | exit (rest : List CChar) : Script [] (nameExit ++ chNewline :: rest)
  | line {w t stdin : List CChar} {ws : List (List CChar)} {cmds : List Cmd}
      (hnul : ∀ v ∈ w :: ws, NulFree v) (hexit : w ≠ nameExit) (hcd : w = nameCd → ws ≠ [])
      (hops : ∀ v ∈ ws, isOperatorToken v = false) (ht : WrittenLine (w :: ws) t)
      (hfit : t.length < lineLimit) (h : Script cmds stdin) : Script (.ofWords w ws :: cmds) (t ++ chNewline :: stdin)

theorem lineCommands_writtenLine {w t : List CChar} {ws : List (List CChar)}
    (hnul : ∀ v ∈ w :: ws, NulFree v) (hops : ∀ v ∈ ws, isOperatorToken v = false)
    (ht : WrittenLine (w :: ws) t) : lineCommands t = [.ofWords w ws] := by
  rw [lineCommands, cstr_of_nulFree (ht.quotedLine.nulFree hnul), tokens_quotedLine ht.quotedLine,
    commands, groupCmds_words _ _ hops]
  simp [Cmd.ofName, Cmd.ofWords]

theorem lineText_exit (rest : List CChar) :
    lineText false chS (nameExit ++ chNewline :: rest) = (nameExit, rest) := by
  have hinert : ∀ c ∈ nameExit, Inert c := by
    unfold Inert
    decide
  rw [lineText_inert false chS nameExit _ hinert]
  rfl

/-- The lines of a script have its commands, and then there is an `exit`; they all fit. -/
theorem Script.streamLines {cmds : List Cmd} {stdin : List CChar} (h : Script cmds stdin) :
    (∀ cmd ∈ cmds, cmd.name ≠ nameExit ∧ ¬ cmd.LacksDir) ∧
      ∃ lines rest, Shell.streamLines stdin = lines ++ nameExit :: rest ∧
        lines.flatMap lineCommands = cmds ∧ ∀ line ∈ lines, line.length < lineLimit := by
  induction h with
  | exit rest =>
      refine ⟨by simp, [], Shell.streamLines rest, ?_, rfl, by simp⟩
      exact streamLines_cons _ _ (lineText_exit rest)
  | @line w t stdin ws cmds hnul hexit hcd hops ht hfit h ih =>
      obtain ⟨hcmds, lines, rest, hstream, hlines, hfits⟩ := ih
      refine ⟨List.forall_mem_cons.2 ⟨⟨hexit, fun hl => hcd hl.1 hl.2⟩, hcmds⟩, t :: lines, rest, ?_,
        ?_, List.forall_mem_cons.2 ⟨hfit, hfits⟩⟩
      · rw [streamLines_cons _ _ (lineText_writtenLine ht stdin), hstream, List.cons_append]
      · rw [List.flatMap_cons, lineCommands_writtenLine hnul hops ht, hlines]
        rfl

/-- When no `fork` fails, lines with an `exit` that is reached end the session. -/
theorem runLines_exits (os : Os) (hfork : ∀ tr, os.fork tr = true) (lines : List (List CChar)) :
    ∀ tr, ExitsIn lines → ∃ tr', runLines os tr lines = .exited tr' := by
  induction lines with
  | nil => exact fun tr hexits => absurd hexits exitsIn_nil
  | cons line lines ih =>
      intro tr hexits
      have hfit : line.length < lineLimit := by
        by_contra hlong
        exact exitsIn_long hlong hexits
      rw [runLines, lineStatus_fits hfit]
      rcases execStatus_exits os hfork (prompted tr) (lineCommands line) with
        ⟨hst, -⟩ | ⟨hst, hrest⟩ | ⟨hst, hnever⟩
      · rw [hst]
        exact ⟨_, rfl⟩
      · rw [hst]
        exact ih _ ((exitsIn_cons hfit hrest).1 hexits)
      · rw [exitsIn_cons hfit fun rest => iff_false_intro (hnever rest)] at hexits
        obtain ⟨-, -, -, -, hfalse⟩ := hexits
        exact hfalse.elim

end SysProg.Shell
