import SysProg.Shell.Command

set_option autoImplicit false

/-! # The command lists of `parse_cmds` (`2/solution/command.c`)

`parse_cmds` never refuses its tokens, but not every list of commands is a result of it. `Grouping`
says which ones are: a command to run comes first and after every connective, and what follows a
command is a redirection, which starts a command of its own, or a connective, which is one. Such a
list is printed by writing down its names and arguments, and read back as it was. -/

namespace SysProg.Shell

/-- A command to which no more arguments come. -/
structure Cmd.Complete (cmd : Cmd) (special : Bool) : Prop where
  argc : cmd.argc = cmd.argv.length
  words : ∀ arg ∈ cmd.argv, isOperatorToken arg = false
  special : cmd.special = special

/-- The lists of commands whose first one is marked `special`. -/
inductive Grouping : Bool → List Cmd → Prop where
  | last {special : Bool} {cmd : Cmd} (h : cmd.Complete special) : Grouping special [cmd]
  | redirect {special : Bool} {cmd file : Cmd} {rest : List Cmd} (h : cmd.Complete special)
      (hred : isRedirect file.name = true) (hrest : Grouping true (file :: rest)) :
      Grouping special (cmd :: file :: rest)
  | connective {special : Bool} {cmd : Cmd} {op : List CChar} {rest : List Cmd}
      (h : cmd.Complete special) (hop : isConnective op = true) (hrest : Grouping false rest) :
      Grouping special (cmd :: .ofName op true :: rest)
  | trailing {special : Bool} {cmd : Cmd} {op : List CChar} (h : cmd.Complete special)
      (hop : isConnective op = true) : Grouping special [cmd, .ofName op true]

theorem complete_ofName (name : List CChar) (special : Bool) :
    (Cmd.ofName name special).Complete special :=
  ⟨rfl, by simp [Cmd.ofName], rfl⟩

theorem complete_addArg {cmd : Cmd} {special : Bool} (h : cmd.Complete special) {arg : List CChar}
    (harg : isOperatorToken arg = false) : (cmd.addArg arg).Complete special := by
  refine ⟨addArg_argc h.argc arg, ?_, h.special⟩
  intro a ha
  rcases List.mem_append.1 ha with ha | ha
  · exact h.words a ha
  · rw [List.mem_singleton.1 ha]
    exact harg

theorem isRedirect_of_isConnective {arg : List CChar} (h : isConnective arg = true) :
    ¬ isRedirect arg = true := by
  intro hred
  rw [isConnective_of_isRedirect hred] at h
  exact Bool.false_ne_true h

/-! ## What `parse_cmds` makes -/

/-- The first command keeps its name. -/
theorem groupCmds_head (cmd : Cmd) (args : List (List CChar)) :
    ∃ first rest, groupCmds cmd args = first :: rest ∧ first.name = cmd.name := by
  induction cmd, args using groupCmds.induct with
  | case1 cmd => exact ⟨cmd, [], by rw [groupCmds], rfl⟩
  | case2 cmd arg rest hred ih => exact ⟨cmd, _, groupCmds_redirect hred cmd rest, rfl⟩
  | case3 cmd arg hred hcon next rest ih =>
      exact ⟨cmd, _, groupCmds_connective hred hcon cmd next rest, rfl⟩
  | case4 cmd arg hred hcon => exact ⟨cmd, _, groupCmds_trailing hred hcon cmd, rfl⟩
  | case5 cmd arg rest hred hcon ih =>
      obtain ⟨first, cmds, heq, hname⟩ := ih
      rw [Bool.not_eq_true] at hred hcon
      exact ⟨first, cmds, by rw [groupCmds_word hred hcon, heq], hname⟩

/-- The commands that follow the start of one are grouped. -/
theorem groupCmds_grouping (cmd : Cmd) (args : List (List CChar)) : ∀ {special : Bool},
    cmd.Complete special → Grouping special (groupCmds cmd args) := by
  induction cmd, args using groupCmds.induct with
  | case1 cmd =>
      intro special h
      rw [groupCmds]
      exact .last h
  | case2 cmd arg rest hred ih =>
      intro special h
      have hfile := ih (complete_ofName arg true)
      have hname := groupCmds_head (.ofName arg true) rest
      rw [groupCmds_redirect hred]
      obtain ⟨file, cmds, heq, hfst⟩ := hname
      rw [heq] at hfile ⊢
      exact .redirect h (by rw [hfst]; exact hred) hfile
  | case3 cmd arg hred hcon next rest ih =>
      intro special h
      rw [groupCmds_connective hred hcon]
      exact .connective h hcon (ih (complete_ofName next false))
  | case4 cmd arg hred hcon =>
      intro special h
      rw [groupCmds_trailing hred hcon]
      exact .trailing h hcon
  | case5 cmd arg rest hred hcon ih =>
      intro special h
      rw [Bool.not_eq_true] at hred hcon
      rw [groupCmds_word hred hcon]
      exact ih (complete_addArg h (by rw [isOperatorToken, hred, hcon]; rfl))

/-! ## Reading a printed list -/

/-- Words after the start of a command become its arguments. -/
theorem groupCmds_words_append (cmd : Cmd) (words rest : List (List CChar))
    (h : ∀ a ∈ words, isOperatorToken a = false) :
    groupCmds cmd (words ++ rest) = groupCmds
      { cmd with argv := cmd.argv ++ words, argc := cmd.argc + words.length } rest := by
  induction words generalizing cmd with
  | nil => simp
  | cons arg words ih =>
      obtain ⟨harg, hwords⟩ := List.forall_mem_cons.1 h
      rw [isOperatorToken, Bool.or_eq_false_iff] at harg
      rw [List.cons_append, groupCmds_word harg.1 harg.2, ih (cmd.addArg arg) hwords]
      simp [Cmd.addArg, Nat.add_assoc, Nat.add_comm 1]

/-- The tokens of a complete command are read as the command. -/
theorem groupCmds_complete {cmd : Cmd} {special : Bool} (h : cmd.Complete special)
    (rest : List (List CChar)) :
    groupCmds (.ofName cmd.name special) (cmd.argv ++ rest) = groupCmds cmd rest := by
  rw [groupCmds_words_append _ _ _ h.words]
  congr 1
  obtain ⟨name, argv, argc, flag⟩ := cmd
  obtain ⟨hargc, -, hflag⟩ := h
  simp only at hargc hflag
  subst hargc hflag
  simp [Cmd.ofName]

/-- A list that is printed is read back. -/
theorem Grouping.groupCmds_tokens {special : Bool} {cmds : List Cmd} (h : Grouping special cmds) :
    ∃ name args, cmds.flatMap Cmd.tokens = name :: args ∧
      groupCmds (.ofName name special) args = cmds := by
  induction h with
  | @last special cmd h =>
      refine ⟨cmd.name, cmd.argv ++ [], by simp [Cmd.tokens], ?_⟩
      rw [groupCmds_complete h, groupCmds]
  | @redirect special cmd file rest h hred hrest ih =>
      obtain ⟨name, args, htokens, hgroup⟩ := ih
      obtain ⟨rfl, hargs⟩ := List.cons.inj htokens
      refine ⟨cmd.name, cmd.argv ++ file.name :: args, ?_, ?_⟩
      · rw [List.flatMap_cons, htokens]
        rfl
      · rw [groupCmds_complete h, groupCmds_redirect hred, hgroup]
  | @connective special cmd op rest h hop hrest ih =>
      obtain ⟨name, args, htokens, hgroup⟩ := ih
      refine ⟨cmd.name, cmd.argv ++ op :: name :: args, ?_, ?_⟩
      · rw [List.flatMap_cons, List.flatMap_cons, htokens]
        rfl
      · rw [groupCmds_complete h, groupCmds_connective (isRedirect_of_isConnective hop) hop, hgroup]
  | @trailing special cmd op h hop =>
      refine ⟨cmd.name, cmd.argv ++ [op], by simp [Cmd.tokens, Cmd.ofName], ?_⟩
      rw [groupCmds_complete h, groupCmds_trailing (isRedirect_of_isConnective hop) hop]

/-! ## `parse_cmds` -/

/-- `parse_cmds` makes the commands `cmds` of the tokens `argv`. -/
def ParsesTo (argv : List (List CChar)) (cmds : List Cmd) : Prop :=
  ∃ (p : Pair (Option Cmd)) (live live' : Int),
    (parseCmds argv argv.length).run live = pure (some p, live') ∧
    p.first.take p.second.toNat = cmds.map some

theorem parsesTo_iff (argv : List (List CChar)) (cmds : List Cmd) :
    ParsesTo argv cmds ↔ argv ≠ [] ∧ cmds = commands argv := by
  constructor
  · rintro ⟨p, live, live', hrun, hslots⟩
    cases argv with
    | nil =>
        rw [parseCmds] at hrun
        cases hrun
    | cons arg args =>
        obtain ⟨q, hrun', hslots', -⟩ := parseCmds_run arg args live
        rw [hrun', pure_inj, Prod.mk.injEq, Option.some.injEq] at hrun
        rw [← hrun.1, hslots'] at hslots
        exact ⟨by simp, ((List.map_inj_right fun _ _ => Option.some.inj).1 hslots).symm⟩
  · rintro ⟨hne, rfl⟩
    obtain ⟨arg, args, rfl⟩ := List.exists_cons_of_ne_nil hne
    obtain ⟨p, hrun, hslots, -⟩ := parseCmds_run arg args 0
    exact ⟨p, 0, _, hrun, hslots⟩

/-- **The command lists are the groupings**: a list of commands is a result of `parse_cmds` if and
    only if it is a grouping that starts with a command to run; and then it is the result for one
    token list only, its names and arguments written down in order. -/
theorem parseCmds_grouping (cmds : List Cmd) :
    (Grouping false cmds ↔ ∃ argv, ParsesTo argv cmds) ∧
      ∀ argv, ParsesTo argv cmds → argv = cmds.flatMap Cmd.tokens := by
  refine ⟨⟨fun h => ?_, ?_⟩, ?_⟩
  · obtain ⟨name, args, htokens, hgroup⟩ := h.groupCmds_tokens
    exact ⟨name :: args, (parsesTo_iff _ _).2 ⟨by simp, hgroup.symm⟩⟩
  · rintro ⟨argv, hparse⟩
    obtain ⟨hne, rfl⟩ := (parsesTo_iff _ _).1 hparse
    obtain ⟨arg, args, rfl⟩ := List.exists_cons_of_ne_nil hne
    exact groupCmds_grouping _ args (complete_ofName arg false)
  · intro argv hparse
    rw [((parsesTo_iff _ _).1 hparse).2, commands_tokens]

end SysProg.Shell
