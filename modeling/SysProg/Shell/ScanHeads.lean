import SysProg.Lib.Run
import SysProg.Shell.ScannerRefine

set_option autoImplicit false

/-! # The heads of the scan loop

Every iteration of the loop of `parse_line` starts with its quote flags, its two stacks and its index
in an order the branches rely on (`ScanInvariant`). It holds at each head of the loop; from each the
iteration ends normally, so no stack is popped or peeked when it is empty, and the index has moved
on. -/

namespace SysProg.Shell

open Run

/-! ## From head to head -/

/-- The variables of `parse_line` when its loop starts. -/
def parseInit : ParseState :=
  { stack := [], wstack := [], args := [], argc := 0, singleQuote := false, doubleQuote := false,
    idx := 0 }

/-- From a head of the scan loop to the next one, if there is one; with the number of blocks
    allocated. -/
def scanStep (rs : List CChar) (len : Nat) (h : ParseState × Int) : C (Option (ParseState × Int)) :=
  if h.1.idx < len then do
    let ((s, flow), live) ← (parseStep rs len h.1).run h.2
    match flow with
    | .next => pure (some ({ s with idx := s.idx + 1 }, live))
    | .brk => pure none
  else pure none

/-- What the branches rely on at a head of the loop. -/
structure ScanInvariant (s : ParseState) : Prop where
  quotes : ¬ (s.singleQuote = true ∧ s.doubleQuote = true)
  stack : s.stack = [] ∨ s.stack = [chBackslash]
  escape : s.stack ≠ [] → s.doubleQuote = true
  word : s.singleQuote = false → s.doubleQuote = false → s.wstack = []

theorem AtHead.scanInvariant {m : Mode} {s : ParseState} (hm : m.AtHead s) : ScanInvariant s := by
  rcases AtHead.mode_cases hm with rfl | ⟨w, rfl⟩ | ⟨w, rfl⟩ | ⟨w, rfl⟩
  · obtain ⟨hsq, hdq, hst, hw⟩ := hm
    exact ⟨by simp [hsq], Or.inl hst, fun h => absurd hst h, fun _ _ => hw⟩
  · obtain ⟨hsq, hdq, hst, -⟩ := hm
    exact ⟨by simp [hdq], Or.inl hst, fun h => absurd hst h, by simp [hsq]⟩
  · obtain ⟨hsq, hdq, hst, -⟩ := hm
    exact ⟨by simp [hsq], Or.inl hst, fun _ => hdq, by simp [hdq]⟩
  · obtain ⟨hsq, hdq, hst, -⟩ := hm
    exact ⟨by simp [hsq], Or.inr hst, fun _ => hdq, by simp [hdq]⟩

/-! ## How many tokens there are -/

/-- The tokens a mode holds back. -/
def Mode.credit : Mode → Nat
  | .operator _ => 1
  | .word _ => 1
  | .wordEsc _ => 1
  | .escOp _ => 1
  | _ => 0

theorem opened_credit (c : CChar) : (Mode.opened c).credit ≤ 1 := by
  unfold Mode.opened
  split_ifs <;> simp [Mode.credit]

theorem step_credit (m : Mode) (c : CChar) :
    (m.step c).2.length + (m.step c).1.credit ≤ m.credit + 1 := by
  have hopened := opened_credit c
  cases m with
  | neutral => simpa [Mode.step, Mode.credit] using hopened
  | operator o =>
      rw [Mode.step]
      split_ifs
      · exact Nat.le_succ 1
      · show 1 + (Mode.opened c).credit ≤ 1 + 1
        omega
  | single w =>
      rw [Mode.step]
      split_ifs <;> simp [Mode.credit]
  | double w =>
      rw [Mode.step]
      split_ifs <;> simp [Mode.credit]
  | doubleEsc w => simp [Mode.step, Mode.credit]
  | word w =>
      rw [Mode.step]
      split_ifs <;> simp [Mode.credit]
  | wordEsc w =>
      rw [Mode.step]
      split_ifs <;> simp [Mode.credit]
  | escOp o => simp [Mode.step, Mode.credit]
  | comment => simp [Mode.step, Mode.credit]

theorem flush_credit (m : Mode) : m.flush.length ≤ m.credit := by
  cases m <;> simp [Mode.flush, Mode.credit]

/-- A line has at most as many tokens as characters. -/
theorem tokens_length_le (text : List CChar) : (tokens text).length ≤ text.length := by
  have h := scanner.output_length_le step_credit flush_credit .neutral text
  simpa [tokens, Mode.credit] using h

/-! ## One iteration -/

/-- A head of the scan of `text`: the mode the flags and stacks show, and the tokens found so far,
    followed by those in the rest of the line, are the tokens of the line. -/
structure HeadOf (text : List CChar) (base : Int) (h : ParseState × Int) : Prop where
  mode : ∃ m : Mode, m.AtHead h.1 ∧
    h.1.args.map cstr ++ scanner.output m (text.drop h.1.idx) = tokens text
  argc : h.1.argc = h.1.args.length
  live : h.2 = base + h.1.blocks

namespace HeadOf

variable {text : List CChar} {base : Int} {h : ParseState × Int}

theorem scanInvariant (hh : HeadOf text base h) : ScanInvariant h.1 := by
  obtain ⟨m, hm, -⟩ := hh.mode
  exact AtHead.scanInvariant hm

theorem argc_le (hh : HeadOf text base h) : h.1.argc ≤ text.length := by
  obtain ⟨m, -, htok⟩ := hh.mode
  have hle := tokens_length_le text
  rw [← htok, List.length_append, List.length_map] at hle
  rw [hh.argc]
  omega

end HeadOf

theorem headOf_init (text : List CChar) (live : Int) : HeadOf text live (parseInit, live) :=
  ⟨⟨.neutral, ⟨rfl, rfl, rfl, rfl⟩, rfl⟩, rfl, by simp [parseInit, ParseState.blocks]⟩

section Line

variable {text : List CChar} (rest : List CChar)

/-- From a head of the loop the scan either ends or goes on to a later head; `parseLoop` does the
    same. -/
theorem scanStep_cases (htext : NulFree text) {base : Int} {h : ParseState × Int}
    (hh : HeadOf text base h) :
    (scanStep (text ++ chNul :: rest) text.length h = .ok none ∧ ∀ fuel,
      (parseLoop (text ++ chNul :: rest) text.length (fuel + 1) h.1).run h.2 = pure h) ∨
    ∃ t, Goes (scanStep (text ++ chNul :: rest) text.length) h t ∧ HeadOf text base t ∧
      h.1.idx < t.1.idx ∧ h.1.idx < text.length ∧ ∀ fuel,
        (parseLoop (text ++ chNul :: rest) text.length (fuel + 1) h.1).run h.2
          = (parseLoop (text ++ chNul :: rest) text.length fuel t.1).run t.2 := by
  obtain ⟨s, live⟩ := h
  obtain ⟨⟨m, hm, htok⟩, hargc, hlive⟩ := hh
  simp only at hm htok hargc hlive
  subst hlive
  cases hdrop : text.drop s.idx with
  | nil =>
      have hge : ¬ s.idx < text.length := by
        rw [Nat.not_lt]
        exact List.drop_eq_nil_iff.1 hdrop
      exact Or.inl ⟨by rw [scanStep, if_neg hge]; rfl, fun fuel => by simp [parseLoop, hge]⟩
  | cons c xs =>
      have hlt := lt_length_of_drop hdrop
      obtain ⟨s', flow, hrun, hflow⟩ := parseStep_run rest htext s m base hm hdrop
      rcases hflow with ⟨rfl, ⟨m', ts, hm', hargs, hread⟩, hidx, hargc'⟩ | ⟨rfl, rfl, -, -⟩
      · refine Or.inr ⟨({ s' with idx := s'.idx + 1 }, base + s'.blocks), ?_, ⟨⟨m', ?_, ?_⟩, ?_, rfl⟩,
          Nat.lt_succ_of_le hidx, hlt, fun fuel => ?_⟩
        · simp only [Goes, scanStep, if_pos hlt, hrun, pure_bind]
          rfl
        · exact AtHead.setIdx hm' (s'.idx + 1)
        · rw [← htok, hread.output]
          simp only [hargs, List.append_assoc]
        · simp only
          omega
        · simp only [parseLoop, if_pos hlt, StateT.run_bind, hrun, pure_bind]
      · refine Or.inl ⟨?_, fun fuel => ?_⟩
        · simp only [scanStep, if_pos hlt, hrun, pure_bind]
          rfl
        · simp only [parseLoop, if_pos hlt, StateT.run_bind, hrun, pure_bind]
          rfl

/-- Every head of the scan is one of the text. -/
theorem reaches_headOf (htext : NulFree text) {base : Int} {h t : ParseState × Int}
    (hh : HeadOf text base h)
    (hreach : Reaches (scanStep (text ++ chNul :: rest) text.length) h t) : HeadOf text base t := by
  induction hreach with
  | refl => exact hh
  | tail _ hgoes ih =>
      rcases scanStep_cases rest htext ih with ⟨hend, -⟩ | ⟨u, hgoes', hu, -⟩
      · cases hgoes.symm.trans hend
      · cases hgoes.symm.trans hgoes'
        exact hu

/-- The scan loop ends at the last head, in the state it has there. -/
theorem parseLoop_reaches (htext : NulFree text) {base : Int} (fuel : Nat) :
    ∀ h : ParseState × Int, HeadOf text base h → text.length - h.1.idx < fuel →
      ∃ t, Reaches (scanStep (text ++ chNul :: rest) text.length) h t ∧
        scanStep (text ++ chNul :: rest) text.length t = .ok none ∧
        (parseLoop (text ++ chNul :: rest) text.length fuel h.1).run h.2 = pure t := by
  induction fuel with
  | zero => intro h hh hfuel; omega
  | succ fuel ih =>
      intro h hh hfuel
      rcases scanStep_cases rest htext hh with ⟨hend, hloop⟩ | ⟨u, hgoes, hu, hlt, hlen, hloop⟩
      · exact ⟨h, .refl, hend, hloop fuel⟩
      · obtain ⟨t, hreach, hend, hrun⟩ := ih u hu (by omega)
        exact ⟨t, .head hgoes hreach, hend, (hloop fuel).trans hrun⟩

/-! ## The whole scan -/

/-- **The scan of a line keeps its invariant and ends**: at every head of the loop the flags and
    stacks satisfy `ScanInvariant`, and there are at most as many tokens as characters; from each the
    iteration ends normally, at the end of the loop or at a head with a larger index; and the loop
    comes to its end, with which `parse_line` returns. With nothing behind the terminator an index
    beyond it would be out of bounds. -/
theorem parseLine_heads (htext : NulFree text) (live : Int) :
    (∀ h, Reaches (scanStep (text ++ chNul :: rest) text.length) (parseInit, live + 2) h →
      ScanInvariant h.1 ∧ h.1.argc ≤ text.length ∧
        (scanStep (text ++ chNul :: rest) text.length h = .ok none ∨
          ∃ t, Goes (scanStep (text ++ chNul :: rest) text.length) h t ∧ h.1.idx < t.1.idx)) ∧
    ∃ t, Reaches (scanStep (text ++ chNul :: rest) text.length) (parseInit, live + 2) t ∧
      scanStep (text ++ chNul :: rest) text.length t = .ok none ∧
      (parseScan (text ++ chNul :: rest)).run live = pure ((t.1, text.length), t.2) ∧
      ∃ left, (parseLine (text ++ chNul :: rest)).run live = pure (⟨t.1.args, t.1.argc⟩, left) := by
  have hinit := headOf_init text (live + 2)
  refine ⟨fun h hreach => ?_, ?_⟩
  · have hh := reaches_headOf rest htext hinit hreach
    refine ⟨hh.scanInvariant, hh.argc_le, ?_⟩
    rcases scanStep_cases rest htext hh with ⟨hend, -⟩ | ⟨t, hgoes, -, hlt, -⟩
    · exact Or.inl hend
    · exact Or.inr ⟨t, hgoes, hlt⟩
  · obtain ⟨t, hreach, hend, hloop⟩ := parseLoop_reaches rest htext (text.length + 1) _ hinit
      (by simp [parseInit])
    have hscan : (parseScan (text ++ chNul :: rest)).run live = pure ((t.1, text.length), t.2) := by
      have hcount : live + 1 + 1 = live + 2 := by ring
      simp only [parseScan, StateT.run_bind, csInit_run, pure_bind, strlen_append_nul htext,
        StateT.run_pure, hcount]
      simp only [parseInit] at hloop
      simp only [hloop, pure_bind]
    refine ⟨t, hreach, hend, hscan, ?_⟩
    simp only [parseLine, StateT.run_bind, hscan, pure_bind, csFree_run, free_run, makePair,
      malloc_run, StateT.run_pure]
    exact ⟨_, rfl⟩

/-- The scan of a line that ends in a backslash, inside a double quote. -/
theorem parseLine_heads_open :
    ∃ t, Reaches (scanStep [chDquote, chBackslash, chNul] 2) (parseInit, 2) t ∧
      scanStep [chDquote, chBackslash, chNul] 2 t = .ok none ∧ ScanInvariant t.1 ∧
      t.1.argc ≤ 2 := by
  have htext : NulFree [chDquote, chBackslash] := by decide
  obtain ⟨hheads, t, hreach, hend, -⟩ := parseLine_heads [] htext 0
  obtain ⟨hinv, hargc, -⟩ := hheads t hreach
  exact ⟨t, hreach, hend, hinv, hargc⟩

end Line

end SysProg.Shell
