import Mathlib.Data.List.Chain
import SysProg.Shell.Command

set_option autoImplicit false

/-! # The `special` flag (`2/solution/command.c`)

`special` is the only record that a command is an operator and not a program to run. The token right
after a connective becomes the name of the next command as it is, so an operator at this place
starts a command that is not marked. -/

namespace SysProg.Shell

/-- The flag of a command tells whether its name is one of `>`, `>>`, `|`, `||`, `&&` and `&`. -/
def Cmd.Marked (cmd : Cmd) : Prop := cmd.special = true ↔ isOperatorToken cmd.name = true

/-- No operator stands right after a connective. -/
def OperatorsApart (args : List (List CChar)) : Prop :=
  args.IsChain fun arg next => isConnective arg = true → isOperatorToken next = false

theorem marked_ofName_true {arg : List CChar} (h : isOperatorToken arg = true) :
    (Cmd.ofName arg true).Marked := by
  simp [Cmd.Marked, Cmd.ofName, h]

theorem marked_ofName_false (arg : List CChar) :
    (Cmd.ofName arg false).Marked ↔ isOperatorToken arg = false := by
  simp [Cmd.Marked, Cmd.ofName]

theorem operatorsApart_cons {arg : List CChar} (h : isConnective arg = false)
    (rest : List (List CChar)) : OperatorsApart (arg :: rest) ↔ OperatorsApart rest := by
  rw [OperatorsApart, OperatorsApart, List.isChain_cons]
  simp [h]

theorem operatorsApart_connective {arg : List CChar} (h : isConnective arg = true)
    (next : List CChar) (rest : List (List CChar)) :
    OperatorsApart (arg :: next :: rest) ↔ isOperatorToken next = false ∧ OperatorsApart rest := by
  rw [OperatorsApart, List.isChain_cons_cons, ← OperatorsApart]
  refine and_congr (forall_prop_of_true h) Iff.rfl |>.trans (and_congr_right fun hnext => ?_)
  rw [isOperatorToken, Bool.or_eq_false_iff] at hnext
  exact operatorsApart_cons hnext.2 rest

/-- The commands after the start of `cmd` are marked when no operator is taken for a name. -/
theorem groupCmds_marked (cmd : Cmd) (args : List (List CChar)) :
    (∀ c ∈ groupCmds cmd args, c.Marked) ↔ cmd.Marked ∧ OperatorsApart args := by
  induction cmd, args using groupCmds.induct with
  | case1 cmd => simp [groupCmds, OperatorsApart]
  | case2 cmd arg rest hred ih =>
      have hop : (Cmd.ofName arg true).Marked :=
        marked_ofName_true (by rw [isOperatorToken, hred, Bool.true_or])
      rw [groupCmds_redirect hred, List.forall_mem_cons, ih,
        operatorsApart_cons (isConnective_of_isRedirect hred), and_iff_right hop]
  | case3 cmd arg hred hcon next rest ih =>
      have hop : (Cmd.ofName arg true).Marked :=
        marked_ofName_true (by rw [isOperatorToken, hcon, Bool.or_true])
      rw [groupCmds_connective hred hcon, List.forall_mem_cons, List.forall_mem_cons, ih,
        operatorsApart_connective hcon, and_iff_right hop, marked_ofName_false]
  | case4 cmd arg hred hcon =>
      have hop : (Cmd.ofName arg true).Marked :=
        marked_ofName_true (by rw [isOperatorToken, hcon, Bool.or_true])
      simp [groupCmds_trailing hred hcon, OperatorsApart, hop]
  | case5 cmd arg rest hred hcon ih =>
      rw [Bool.not_eq_true] at hred hcon
      rw [groupCmds_word hred hcon, ih, operatorsApart_cons hcon]
      exact Iff.rfl

/-- The commands of a line are marked when its first token is no operator and no operator stands
    right after a connective. -/
theorem commands_marked (arg : List CChar) (args : List (List CChar)) :
    (∀ c ∈ commands (arg :: args), c.Marked) ↔
      isOperatorToken arg = false ∧ OperatorsApart (arg :: args) := by
  rw [commands, groupCmds_marked, marked_ofName_false]
  refine and_congr_right fun harg => ?_
  rw [isOperatorToken, Bool.or_eq_false_iff] at harg
  rw [operatorsApart_cons harg.2]

/-- **The flag marks the operators**: on a line's tokens every command that `parse_cmds` returns is
    marked if and only if the first token is no operator and no operator stands right after a
    connective. -/
theorem parseCmds_marked_iff (arg : List CChar) (args : List (List CChar)) (live : Int) :
    ∃ (p : Pair (Option Cmd)) (live' : Int),
      (parseCmds (arg :: args) (arg :: args).length).run live = pure (some p, live') ∧
      ((∀ slot ∈ p.first.take p.second.toNat, ∃ cmd, slot = some cmd ∧ cmd.Marked) ↔
        isOperatorToken arg = false ∧ OperatorsApart (arg :: args)) := by
  obtain ⟨p, hrun, htake, -⟩ := parseCmds_run arg args live
  refine ⟨p, _, hrun, ?_⟩
  rw [htake, ← commands_marked]
  simp

/-- The commands of `a && && b`: the second `&&` is the name of a command to run. -/
theorem parseCmds_doubled_connective :
    ¬ ∀ (arg : List CChar) (args : List (List CChar)) (live : Int),
      ∃ (p : Pair (Option Cmd)) (live' : Int),
        (parseCmds (arg :: args) (arg :: args).length).run live = pure (some p, live') ∧
        ∀ slot ∈ p.first.take p.second.toNat, ∃ cmd, slot = some cmd ∧ cmd.Marked := by
  intro h
  obtain ⟨p, live', hrun, hmarked⟩ := h [97] [[chAmp, chAmp], [chAmp, chAmp], [98]] 0
  obtain ⟨q, hrun', htake, -⟩ := parseCmds_run [97] [[chAmp, chAmp], [chAmp, chAmp], [98]] 0
  rw [hrun, pure_inj, Prod.mk.injEq, Option.some.injEq] at hrun'
  obtain ⟨rfl, -⟩ := hrun'
  have hmem : some (Cmd.ofName [chAmp, chAmp] false |>.addArg [98])
      ∈ p.first.take p.second.toNat := by
    rw [htake]
    decide
  obtain ⟨cmd, hcmd, hflag⟩ := hmarked _ hmem
  obtain rfl := Option.some.inj hcmd
  exact absurd (hflag.2 (by decide)) (by decide)

end SysProg.Shell
