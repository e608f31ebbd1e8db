import SysProg.Shell.Tokens
import SysProg.Shell.Exec

set_option autoImplicit false

/-! # Quoted words up to `execvp`

A line of double-quoted words reaches `parse_cmds` as its words, and nothing says any more that they
were quoted. They are executed as one command exactly when none but the first is the text of an
operator. -/

namespace SysProg.Shell

/-- A word between double quotes. -/
def doubleQuoted (w : List CChar) : List CChar := chDquote :: escapeDouble w ++ [chDquote]

/-- Words between double quotes, joined by one or more spaces. -/
inductive DoubleQuotedLine : List (List CChar) → List CChar → Prop where
  | one (w : List CChar) : DoubleQuotedLine [w] (doubleQuoted w)
  | cons (w : List CChar) (n : Nat) {ws : List (List CChar)} {t : List CChar}
      (h : DoubleQuotedLine ws t) :
      DoubleQuotedLine (w :: ws) (doubleQuoted w ++ List.replicate (n + 1) chSpace ++ t)

theorem DoubleQuotedLine.ne_nil {ws : List (List CChar)} {t : List CChar}
    (h : DoubleQuotedLine ws t) : ws ≠ [] := by
  cases h <;> simp

theorem DoubleQuotedLine.quotedLine {ws : List (List CChar)} {t : List CChar}
    (h : DoubleQuotedLine ws t) : QuotedLine ws t := by
  induction h with
  | one w => exact .one (.double w)
  | cons w n h ih =>
      refine .cons (.double w) ?_ (by simp) h.ne_nil ih
      intro c hc
      exact Or.inl (List.eq_of_mem_replicate hc)

/-- The line `t` is one command, and running it after the events `tr` is one `execvp` of `w` with
    the vector `w`, `ws`, NULL. -/
def ExecutesAs (os : Os) (tr : List Event) (t w : List CChar) (ws : List (List CChar)) : Prop :=
  ∃ p q live live' status tr',
    (parseLine (t ++ [chNul])).run 0 = pure (p, live) ∧
    (parseCmds (p.first.map cstr) p.second).run live = pure (some q, live') ∧
    q.second = 1 ∧
    (execCmds os q.second.toNat q.first tr).run live' = pure ((status, tr'), live') ∧
    execs tr' = execs tr ++ [(w, some w :: (ws.map some ++ [none]))]

/-- Running the only command of a line. -/
theorem execCmds_single (os : Os) (tr : List Event) {cmds : List (Option Cmd)} {cmd : Cmd}
    (hslots : cmds.take 1 = [some cmd]) (live : Int) :
    (execCmds os 1 cmds tr).run live = (do
      let ((exits, tr), live) ← (execCmd os cmd tr).run live
      pure ((if exits then 1 else 0, tr), live)) := by
  obtain ⟨rest, rfl, -⟩ := slots_cons [] hslots
  simp only [execCmds, StateT.run_bind]
  congr 1
  funext r
  obtain ⟨⟨exits, tr'⟩, live'⟩ := r
  cases exits <;> rfl

/-- What `parse_line` and `parse_cmds` make of a line of double-quoted words. -/
theorem quotedLine_parsed {w t : List CChar} {ws : List (List CChar)}
    (hnul : ∀ v ∈ w :: ws, NulFree v) (h : DoubleQuotedLine (w :: ws) t) :
    ∃ p q live live', (parseLine (t ++ [chNul])).run 0 = pure (p, live) ∧
      (parseCmds (p.first.map cstr) p.second).run live = pure (some q, live') ∧
      q.first.take q.second.toNat = (commands (w :: ws)).map some ∧
      q.second = (commands (w :: ws)).length := by
  obtain ⟨p, hline, htok, hlen⟩ := parseLine_run (h.quotedLine.nulFree hnul) [] 0
  rw [tokens_quotedLine h.quotedLine] at htok
  obtain ⟨q, hcmds, hslots, hcount⟩ := parseCmds_run w ws (0 + 1 + p.first.length
    + if p.first = [] then 0 else 1)
  have hargs : parseCmds (p.first.map cstr) p.second = parseCmds (w :: ws) (w :: ws).length := by
    rw [hlen, htok, ← htok, List.length_map]
  rw [← hargs] at hcmds
  exact ⟨p, q, _, _, hline, hcmds, hslots, hcount⟩

/-- **When quoting protects words up to execution**: when a child process can be created and no word
    after the first is the text of an operator. -/
theorem quotedLine_executes (os : Os) (tr : List Event) (w : List CChar)
    (ws : List (List CChar)) (t : List CChar) (hnul : ∀ v ∈ w :: ws, NulFree v)
    (hcd : w ≠ nameCd) (hexit : w ≠ nameExit) (h : DoubleQuotedLine (w :: ws) t) :
    ExecutesAs os tr t w ws ↔ os.fork tr = true ∧ ∀ v ∈ ws, isOperatorToken v = false := by
  obtain ⟨p, q, live, live', hline, hcmds, hslots, hcount⟩ := quotedLine_parsed hnul h
  have hone : q.second = 1 ↔ ∀ v ∈ ws, isOperatorToken v = false := by
    rw [hcount, ← groupCmds_length_eq_one (.ofName w false) ws, commands]
    omega
  -- the only command, when there is one
  let cmd : Cmd := { name := w, argv := ws, argc := ws.length, special := false }
  have hsingle : (∀ v ∈ ws, isOperatorToken v = false) → q.first.take 1 = [some cmd] := by
    intro hwords
    rw [hone.2 hwords, commands, groupCmds_words _ _ hwords] at hslots
    simpa [Cmd.ofName, cmd] using hslots
  constructor
  · rintro ⟨p', q', m, m', status, tr', hline', hcmds', hq1, hexec, -⟩
    rw [hline, pure_inj, Prod.mk.injEq] at hline'
    obtain ⟨rfl, rfl⟩ := hline'
    rw [hcmds, pure_inj, Prod.mk.injEq] at hcmds'
    obtain ⟨hq, -⟩ := hcmds'
    obtain rfl := Option.some.inj hq
    have hwords := hone.1 hq1
    refine ⟨?_, hwords⟩
    by_contra hfork
    rw [hq1, show (1 : Int).toNat = 1 from rfl, execCmds_single os tr (hsingle hwords)] at hexec
    simp [execCmd, cmd, hcd, hexit, hfork] at hexec
  · rintro ⟨hfork, hwords⟩
    have hq1 := hone.2 hwords
    have hrun := execCmd_child os (show cmd.argc = _ from rfl) hcd hexit hfork live'
    refine ⟨p, q, live, live', 0, os.after tr cmd, hline, hcmds, hq1, ?_, execs_after os hcd tr⟩
    rw [hq1, show (1 : Int).toNat = 1 from rfl, execCmds_single os tr (hsingle hwords), hrun]
    rfl

/-- The line `"echo"  "a b"`. -/
theorem quotedLine_executes_echo :
    ExecutesAs .willing [] (doubleQuoted (ascii ['e', 'c', 'h', 'o']) ++ List.replicate 2 chSpace ++
        doubleQuoted (ascii ['a', ' ', 'b'])) (ascii ['e', 'c', 'h', 'o']) [ascii ['a', ' ', 'b']] ↔
      Os.willing.fork [] = true ∧ ∀ v ∈ [ascii ['a', ' ', 'b']], isOperatorToken v = false :=
  quotedLine_executes .willing [] _ _ _ (by decide) (by decide) (by decide) (.cons _ 1 (.one _))

/-- The words of `"echo" "|"` become two commands. -/
theorem quotedLine_pipe :
    (∀ v ∈ [ascii ['e', 'c', 'h', 'o'], [chPipe]], NulFree v) ∧
      ascii ['e', 'c', 'h', 'o'] ≠ nameCd ∧ ascii ['e', 'c', 'h', 'o'] ≠ nameExit ∧
      DoubleQuotedLine [ascii ['e', 'c', 'h', 'o'], [chPipe]]
        (doubleQuoted (ascii ['e', 'c', 'h', 'o']) ++ List.replicate 1 chSpace ++
          doubleQuoted [chPipe]) ∧
      Os.willing.fork [] = true ∧
      ¬ ExecutesAs .willing [] (doubleQuoted (ascii ['e', 'c', 'h', 'o']) ++
        List.replicate 1 chSpace ++ doubleQuoted [chPipe]) (ascii ['e', 'c', 'h', 'o'])
        [[chPipe]] := by
  have hnul : ∀ v ∈ [ascii ['e', 'c', 'h', 'o'], [chPipe]], NulFree v := by decide
  have hline := DoubleQuotedLine.cons (ascii ['e', 'c', 'h', 'o']) 0 (.one [chPipe])
  refine ⟨hnul, by decide, by decide, hline, rfl, ?_⟩
  obtain ⟨p, q, live, live', hparse, hcmds, -, hcount⟩ := quotedLine_parsed hnul hline
  rintro ⟨p', q', m, m', status, tr', hparse', hcmds', hone, -⟩
  rw [hparse, pure_inj, Prod.mk.injEq] at hparse'
  obtain ⟨rfl, rfl⟩ := hparse'
  rw [hcmds, pure_inj, Prod.mk.injEq] at hcmds'
  obtain rfl := Option.some.inj hcmds'.1
  rw [hone] at hcount
  exact absurd hcount (by decide)

end SysProg.Shell
