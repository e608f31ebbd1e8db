import SysProg.Shell.Iteration

set_option autoImplicit false

/-! # When the shell loop ends

At the end of its input `read_line` returns an empty line, again and again, and an empty line has no
commands: nothing but a command named `exit` ends `shell_loop`. What the children do to the input is the
operating system's affair (`Os.stdin`); the results are about those that leave it alone. -/

namespace SysProg.Shell

/-! ## One line -/

/-- A command named `exit`, reached before any `cd` without its argument. -/
def Exits (cmds : List Cmd) : Prop :=
  ∃ pre cmd post, cmds = pre ++ cmd :: post ∧ cmd.name = nameExit ∧ ∀ d ∈ pre, ¬ d.LacksDir

theorem exits_cons {cmd : Cmd} {cmds : List Cmd} :
    Exits (cmd :: cmds) ↔ cmd.name = nameExit ∨ (¬ cmd.LacksDir ∧ Exits cmds) := by
  constructor
  · rintro ⟨pre, c, post, heq, hname, hpre⟩
    cases pre with
    | nil =>
        obtain ⟨rfl, -⟩ := List.cons.inj heq
        exact Or.inl hname
    | cons d pre =>
        obtain ⟨rfl, hcmds⟩ := List.cons.inj heq
        obtain ⟨hd, hpre⟩ := List.forall_mem_cons.1 hpre
        exact Or.inr ⟨hd, pre, c, post, hcmds, hname, hpre⟩
  · rintro (hname | ⟨hd, pre, c, post, rfl, hname, hpre⟩)
    · exact ⟨[], cmd, cmds, rfl, hname, by simp⟩
    · exact ⟨cmd :: pre, c, post, rfl, hname, List.forall_mem_cons.2 ⟨hd, hpre⟩⟩

/-- When every `fork` succeeds: the three ways a list of commands is run, and what each says of the
    commands after it. -/
theorem execStatus_exits (os : Os) (hfork : ∀ tr, os.fork tr = true) (tr : List Event)
    (cmds : List Cmd) :
    (execStatus os tr cmds = pure 1 ∧ ∀ rest, Exits (cmds ++ rest)) ∨
    (execStatus os tr cmds = pure 0 ∧ ∀ rest, Exits (cmds ++ rest) ↔ Exits rest) ∨
    (execStatus os tr cmds = throw .undefined ∧ ∀ rest, ¬ Exits (cmds ++ rest)) := by
  induction cmds generalizing tr with
  | nil => exact Or.inr (Or.inl ⟨rfl, fun rest => Iff.rfl⟩)
  | cons cmd cmds ih =>
      simp only [execStatus, List.cons_append, exits_cons]
      by_cases hcd : cmd.name = nameCd
      · have hexit : cmd.name ≠ nameExit := by rw [hcd]; decide
        rw [if_pos hcd]
        by_cases hdir : cmd.argv = []
        · have hlacks : cmd.LacksDir := ⟨hcd, hdir⟩
          exact Or.inr (Or.inr ⟨by rw [if_pos hdir], fun rest => by simp [hexit, hlacks]⟩)
        · have hlacks : ¬ cmd.LacksDir := fun h => hdir h.2
          simpa [hdir, hexit, hlacks] using ih (os.after tr cmd)
      · rw [if_neg hcd]
        have hlacks : ¬ cmd.LacksDir := fun h => hcd h.1
        by_cases hexit : cmd.name = nameExit
        · exact Or.inl ⟨by rw [if_pos hexit], fun rest => Or.inl hexit⟩
        · simpa [hexit, hlacks, hfork tr] using ih (os.after tr cmd)

/-! ## The whole input -/

theorem length_lineText (quote : Bool) (prev : CChar) (stdin : List CChar) :
    (lineText quote prev stdin).2.length ≤ stdin.length - 1 := by
  induction stdin generalizing quote prev with
  | nil => simp [lineText]
  | cons c stdin ih =>
      rw [lineText]
      cases readAct quote prev c with
      | store quote' =>
          have h := ih quote' c
          simp only [List.length_cons]
          omega
      | skip =>
          have h := ih quote chS
          simp only [List.length_cons]
          omega
      | stop => simp

/-- The lines that `read_line` makes of a stream, up to its end. -/
def streamLines : List CChar → List (List CChar)
  | [] => []
  | c :: stdin => (lineText false chS (c :: stdin)).1 ::
      streamLines (lineText false chS (c :: stdin)).2
termination_by stdin => stdin.length
decreasing_by
  have h := length_lineText false chS (c :: stdin)
  simp only [List.length_cons, Nat.add_sub_cancel] at h ⊢
  omega

theorem streamLines_nil : streamLines [] = [] := by rw [streamLines]

theorem streamLines_cons (line rest : List CChar)
    (h : lineText false chS (line ++ chNewline :: rest) = (line, rest)) :
    streamLines (line ++ chNewline :: rest) = line :: streamLines rest := by
  obtain ⟨c, stdin, hne⟩ : ∃ c stdin, line ++ chNewline :: rest = c :: stdin :=
    List.exists_cons_of_ne_nil (by simp)
  rw [hne] at h ⊢
  rw [streamLines, h]

/-- Some line of `lines` has a command named `exit`; before that command there is no `cd` without its
    argument, and the lines up to that one fit. -/
def ExitsIn (lines : List (List CChar)) : Prop :=
  ∃ pre post, lines = pre ++ post ∧ (∀ line ∈ pre, line.length < lineLimit) ∧
    Exits (pre.flatMap lineCommands)

/-- At the end of the input the loop goes on for as long as it is let. -/
theorem shellLoop_nil (os : Os) (hstdin : os.LeavesStdin) (fuel : Nat) :
    ∀ (tr : List Event) (live : Int), (shellLoop os fuel tr []).run live = throw .diverge := by
  induction fuel with
  | zero => intro tr live; rfl
  | succ fuel ih =>
      intro tr live
      simp only [shellLoop, StateT.run_bind, shellStep_events, hstdin _ _]
      exact ih _ live

/-- `shell_loop` returns after finitely many iterations. -/
def Returns (os : Os) (tr : List Event) (stdin : List CChar) : Prop :=
  ∃ fuel r, (shellLoop os fuel tr stdin).run 0 = pure r

/-- The loop returns exactly when it does from its next iteration on. -/
theorem returns_step {os : Os} {tr tr' : List Event} {stdin rest : List CChar} {status : C Int}
    (hstep : (shellStep os tr stdin).run 0
      = (fun st => ((st, tr', rest), 0)) <$> status) :
    Returns os tr stdin ↔ ∃ st, status = pure st ∧ (st = 0 → Returns os tr' rest) := by
  constructor
  · rintro ⟨fuel, r, hrun⟩
    cases fuel with
    | zero => cases hrun
    | succ fuel =>
        simp only [shellLoop, StateT.run_bind, hstep] at hrun
        cases status with
        | error e => cases hrun
        | ok st =>
            refine ⟨st, rfl, fun hst => ⟨fuel, r, ?_⟩⟩
            subst hst
            exact hrun
  · rintro ⟨st, rfl, hnext⟩
    by_cases hst : st = 0
    · obtain ⟨fuel, r, hrun⟩ := hnext hst
      refine ⟨fuel + 1, r, ?_⟩
      simp only [shellLoop, StateT.run_bind, hstep]
      subst hst
      exact hrun
    · refine ⟨1, (tr', 0), ?_⟩
      simp only [shellLoop, StateT.run_bind, hstep, map_pure, pure_bind, if_pos hst]
      rfl

theorem exitsIn_nil : ¬ ExitsIn [] := by
  rintro ⟨pre, post, hnil, -, before, cmd, behind, heq, -⟩
  obtain ⟨rfl, -⟩ := List.append_eq_nil_iff.1 hnil.symm
  simp at heq

/-- A line that does not fit ends nothing. -/
theorem exitsIn_long {line : List CChar} {lines : List (List CChar)}
    (hlong : ¬ line.length < lineLimit) : ¬ ExitsIn (line :: lines) := by
  rintro ⟨pre, post, heq, hfit, hexits⟩
  cases pre with
  | nil =>
      obtain ⟨before, cmd, behind, hnil, -⟩ := hexits
      simp at hnil
  | cons l pre =>
      obtain ⟨rfl, -⟩ := List.cons.inj heq
      exact hlong (hfit line (List.mem_cons_self ..))

theorem exitsIn_cons {line : List CChar} {lines : List (List CChar)} {P : List Cmd → Prop}
    (hfit : line.length < lineLimit)
    (hline : ∀ rest, Exits (lineCommands line ++ rest) ↔ P rest) :
    ExitsIn (line :: lines) ↔ ∃ pre post, lines = pre ++ post ∧
      (∀ l ∈ pre, l.length < lineLimit) ∧ P (pre.flatMap lineCommands) := by
  constructor
  · rintro ⟨pre, post, heq, hfits, hexits⟩
    cases pre with
    | nil =>
        obtain ⟨before, cmd, behind, hnil, -⟩ := hexits
        simp at hnil
    | cons l pre =>
        obtain ⟨rfl, rfl⟩ := List.cons.inj heq
        rw [List.flatMap_cons, hline] at hexits
        exact ⟨pre, post, rfl, (List.forall_mem_cons.1 hfits).2, hexits⟩
  · rintro ⟨pre, post, rfl, hfits, hp⟩
    refine ⟨line :: pre, post, rfl, List.forall_mem_cons.2 ⟨hfit, hfits⟩, ?_⟩
    rw [List.flatMap_cons, hline]
    exact hp

/-- **When the shell ends**: exactly when some line of its input has a command named `exit`, with
    no `cd` without an argument and no line that does not fit before it. Every `fork` succeeds, and the
    children leave the input alone. -/
theorem shellLoop_returns (os : Os) (hfork : ∀ tr, os.fork tr = true) (hstdin : os.LeavesStdin)
    (stdin : List CChar) (tr : List Event) :
    Returns os tr stdin ↔ ExitsIn (streamLines stdin) := by
  induction stdin using streamLines.induct generalizing tr with
  | case1 =>
      rw [streamLines]
      refine iff_of_false ?_ exitsIn_nil
      rintro ⟨fuel, r, hrun⟩
      rw [shellLoop_nil os hstdin] at hrun
      exact throw_ne_pure _ _ hrun
  | case2 c stdin ih =>
      have hstep := shellStep_events os tr (c :: stdin) 0
      rw [hstdin] at hstep
      rw [returns_step hstep, streamLines]
      by_cases hfit : (lineText false chS (c :: stdin)).1.length < lineLimit
      case neg =>
        refine iff_of_false ?_ (exitsIn_long hfit)
        rintro ⟨st, heq, -⟩
        rw [lineStatus_long hfit] at heq
        exact throw_ne_pure _ _ heq
      rw [lineStatus_fits hfit]
      rcases execStatus_exits os hfork (prompted tr)
        (lineCommands (lineText false chS (c :: stdin)).1) with
        ⟨hst, hexit⟩ | ⟨hst, hexit⟩ | ⟨hst, hexit⟩
      · refine iff_of_true ⟨1, hst, fun h => absurd h (by decide)⟩ ?_
        exact (exitsIn_cons hfit fun rest => iff_true_intro (hexit rest)).2
          ⟨[], _, rfl, by simp, trivial⟩
      · rw [exitsIn_cons hfit hexit, hst]
        refine Iff.trans ?_ (ih (lineEvents os tr (lineText false chS (c :: stdin)).1))
        constructor
        · rintro ⟨st, heq, hnext⟩
          rw [pure_inj] at heq
          exact hnext heq.symm
        · intro h
          exact ⟨0, rfl, fun _ => h⟩
      · refine iff_of_false ?_ ?_
        · rintro ⟨st, heq, -⟩
          rw [hst] at heq
          exact throw_ne_pure _ _ heq
        · rw [exitsIn_cons hfit fun rest => iff_false_intro (hexit rest)]
          rintro ⟨-, -, -, -, hfalse⟩
          exact hfalse

/-- The stream `exit⏎`. -/
theorem shellLoop_returns_exit :
    Returns .willing [] (ascii ['e', 'x', 'i', 't', '\n']) ↔
      ExitsIn (streamLines (ascii ['e', 'x', 'i', 't', '\n'])) :=
  shellLoop_returns .willing (fun _ => rfl) (fun _ _ => rfl) _ []

/-- On the empty stream the shell runs forever. -/
theorem shellLoop_empty : ¬ Returns .willing [] [] := by
  rintro ⟨fuel, r, hrun⟩
  rw [shellLoop_nil .willing (fun _ _ => rfl)] at hrun
  exact throw_ne_pure _ _ hrun

end SysProg.Shell
