import SysProg.Shell.Scanner

set_option autoImplicit false

/-! # `parse_line` refines the scanner

The scan loop of `parse_line` meets the modes `neutral`, `single`, `double` and `doubleEsc` at its
head (`Mode.AtHead`); the operator branches and the unquoted-word loop pass through the others
inside one iteration. Every iteration reads on in the text, so the loops end, no index leaves the
buffer and no empty stack is popped: `parseScan` never stops. -/

namespace SysProg.Shell

/-! ## Reading the line -/

section Reading

variable {text : List CChar} (rest : List CChar)

theorem getElem?_of_drop {i : Nat} {c : CChar} {xs : List CChar} (h : text.drop i = c :: xs) :
    text[i]? = some c := by
  rw [← List.head?_drop, h]
  rfl

theorem lt_length_of_drop {i : Nat} {c : CChar} {xs : List CChar} (h : text.drop i = c :: xs) :
    i < text.length := by
  by_contra hge
  rw [List.drop_eq_nil_of_le (by omega)] at h
  exact absurd h (by simp)

theorem drop_succ_of_drop {i : Nat} {c : CChar} {xs : List CChar} (h : text.drop i = c :: xs) :
    text.drop (i + 1) = xs := by
  rw [← List.drop_drop, h]
  rfl

theorem charAt_of_drop {i : Nat} {c : CChar} {xs : List CChar} (h : text.drop i = c :: xs)
    (live : Int) : (charAt (text ++ chNul :: rest) i).run live = pure (c, live) := by
  refine charAt_run ?_ live
  rw [List.getElem?_append_left (lt_length_of_drop h), getElem?_of_drop h]

theorem charAt_length (live : Int) :
    (charAt (text ++ chNul :: rest) text.length).run live = pure (chNul, live) := by
  refine charAt_run ?_ live
  rw [List.getElem?_append_right (le_refl _), Nat.sub_self]
  rfl

theorem charBelow_eq (i : Nat) (live : Int) :
    (charBelow (text ++ chNul :: rest) text.length i).run live
      = pure ((text.drop i).head?, live) := by
  cases h : text.drop i with
  | nil =>
      have hge : ¬ i < text.length := fun hlt => by
        have hlen := congrArg List.length h
        rw [List.length_drop, List.length_nil] at hlen
        omega
      rw [charBelow, if_neg hge]
      rfl
  | cons c xs =>
      rw [charBelow, if_pos (lt_length_of_drop h), StateT.run_bind, charAt_of_drop rest h]
      rfl

end Reading

/-! ## Saving a token -/

/-- The blocks `parse_line` holds in the stacks and in `args`. -/
def ParseState.blocks (s : ParseState) : Int :=
  s.stack.length + s.wstack.length + s.args.length + if s.args = [] then 0 else 1

/-- `s` after a token with the characters `w` was saved. -/
def ParseState.saved (s : ParseState) (w : List CChar) : ParseState :=
  { s with wstack := [], args := s.args ++ [w ++ [chNul]], argc := s.argc + 1 }

/-- Saving a token frees the word stack and keeps one block for the token, and one for `args` the
    first time. -/
theorem saveToken_run (s : ParseState) (live : Int) :
    (saveToken s).run live = pure (s.saved s.wstack.reverse,
      live - s.wstack.length + 1 + if s.args = [] then 1 else 0) := by
  by_cases hargs : s.args = []
  · simp only [saveToken, hargs, List.isEmpty_nil, if_true, StateT.run_bind, csPush_run, pure_bind,
      malloc_run, csReverse_run, csSplice_run, csFree_run, free_run, StateT.run_pure]
    simp only [ParseState.saved, hargs, List.reverse_cons, pure_inj, Prod.mk.injEq, true_and,
      List.length_cons, List.length_append, List.length_reverse, List.length_nil]
    push_cast
    ring
  · have hempty : s.args.isEmpty = false := by simpa using hargs
    simp only [saveToken, hempty, StateT.run_bind, csPush_run, pure_bind, csReverse_run,
      csSplice_run, csFree_run, free_run, StateT.run_pure, Bool.false_eq_true, if_false]
    simp only [ParseState.saved, if_neg hargs, List.reverse_cons, pure_inj, Prod.mk.injEq, true_and,
      List.length_cons, List.length_append, List.length_reverse, List.length_nil]
    push_cast
    ring

theorem blocks_saved (s : ParseState) (w : List CChar) :
    (s.saved w).blocks
      = s.blocks - s.wstack.length + 1 + if s.args = [] then 1 else 0 := by
  by_cases hargs : s.args = []
  · simp [ParseState.blocks, ParseState.saved, hargs]
  · simp [ParseState.blocks, ParseState.saved, hargs]
    ring

section Line

variable {text : List CChar} (rest : List CChar)

/-! ## The operator branches -/

/-- The operator branch saves one token, of the operator character or of two of them. -/
theorem operatorToken_run {o : CChar} {xs : List CChar} (s : ParseState) (base : Int)
    (hdrop : text.drop s.idx = o :: xs) (hw : s.wstack = []) :
    ∃ s', (operatorToken (text ++ chNul :: rest) text.length o s).run (base + s.blocks)
        = pure (s', base + s'.blocks) ∧
      s' = if xs.head? = some o then { s.saved [o, o] with idx := s.idx + 1 } else s.saved [o] := by
  have hahead : (text.drop (s.idx + 1)).head? = xs.head? := by rw [drop_succ_of_drop hdrop]
  refine ⟨_, ?_, rfl⟩
  by_cases hdbl : xs.head? = some o
  · obtain ⟨ys, rfl⟩ := List.head?_eq_some_iff.1 hdbl
    have hnext := drop_succ_of_drop hdrop
    simp only [operatorToken, StateT.run_bind, charBelow_eq, pure_bind, hahead, hdbl, if_true,
      charAt_of_drop rest hdrop, charAt_of_drop rest hnext, csPush_run, saveToken_run, hw]
    have hblocks : ({ s.saved [o, o] with idx := s.idx + 1 } : ParseState).blocks
        = (s.saved [o, o]).blocks := rfl
    rw [hblocks, blocks_saved, hw]
    simp only [ParseState.saved, List.length_cons, List.length_nil, List.reverse_cons,
      List.reverse_nil, List.nil_append, List.cons_append, pure_inj, Prod.mk.injEq, true_and]
    push_cast
    ring
  · simp only [operatorToken, StateT.run_bind, charBelow_eq, pure_bind, hahead, hdbl, if_false,
      charAt_of_drop rest hdrop, csPush_run, saveToken_run, hw]
    rw [blocks_saved, hw]
    simp only [ParseState.saved, List.length_cons, List.length_nil, List.reverse_cons,
      List.reverse_nil, List.nil_append, pure_inj, Prod.mk.injEq, true_and]
    push_cast
    ring

/-! ## The unquoted-word loop -/

/-- `s` with the word `w` on the word stack and the scan at `idx`. -/
def ParseState.inWord (s : ParseState) (w : List CChar) (idx : Nat) : ParseState :=
  { s with wstack := w.reverse, idx := idx }

@[simp] theorem inWord_idx (s : ParseState) (w : List CChar) (idx : Nat) :
    (s.inWord w idx).idx = idx := rfl

theorem csPush_inWord (s : ParseState) (w : List CChar) (idx : Nat) (c : CChar) (live : Int) :
    (csPush (s.inWord w idx).wstack c).run live = pure ((w ++ [c]).reverse, live + 1) := by
  simp [ParseState.inWord]

/-- A character put into the word by a step of the scanner. -/
theorem reads_word {w : List CChar} {c : CChar} (xs : List CChar) (hb : isBlank c = false)
    (hbs : c ≠ chBackslash) (hq : ¬ (c = chDquote ∨ c = chSquote)) :
    Reads (.word w) (c :: xs) [] (.word (w ++ [c])) xs := by
  refine Reads.of_step xs ?_
  simp only [Mode.step, hb, if_neg hbs, if_neg hq, Bool.false_eq_true, if_false]

/-- What is pushed after a backslash and the operator character `o` at the start of an unquoted
    word: the next character, twice when it is `o`, or the terminator of the line. -/
def escapedChars (o : CChar) : List CChar → List CChar
  | [] => [chNul]
  | c :: _ => if c = o then [c, c] else [c]

theorem escapedChars_reads {o : CChar} {xs : List CChar} (ho : isOperator o = true)
    (hxs : NulFree xs) : Reads (.word []) (chBackslash :: o :: xs)
      [cstr (escapedChars o xs ++ [chNul])] .neutral xs.tail := by
  have hesc : Reads (.word []) (chBackslash :: o :: xs) [] (.wordEsc []) (o :: xs) :=
    Reads.of_step _ (by simp [Mode.step, isBlank])
  have hop : Reads (.wordEsc []) (o :: xs) [] (.escOp o) xs :=
    Reads.of_step _ (by simp only [Mode.step, if_neg (ne_backslash_of_isOperator ho), ho, if_true])
  refine (hesc.trans hop).trans ?_
  cases xs with
  | nil => exact ⟨rfl, rfl⟩
  | cons c ys =>
      have hc0 : c ≠ chNul := (nulFree_cons.1 hxs).1
      have htok : cstr (escapedChars o (c :: ys) ++ [chNul]) = if c = o then [o, o] else [c] := by
        by_cases hdbl : c = o
        · subst hdbl
          simp only [escapedChars, if_true]
          exact cstr_append_nul (by simp [hc0]) []
        · rw [escapedChars, if_neg hdbl, if_neg hdbl]
          exact cstr_append_nul (by simp [hc0]) []
      rw [htok]
      exact Reads.of_step ys rfl

theorem escapedOperator_first {o : CChar} {xs : List CChar} (s : ParseState) {i : Nat} (live : Int)
    (hdrop : text.drop i = chBackslash :: o :: xs) :
    (escapedOperator (text ++ chNul :: rest) text.length o (s.inWord [] (i + 1))).run live
      = pure ((s.inWord (escapedChars o xs) (i + 2), .brk),
          live + (escapedChars o xs).length) := by
  have hnext : text.drop (i + 1) = o :: xs := drop_succ_of_drop hdrop
  have hrest : text.drop (i + 2) = xs := drop_succ_of_drop hnext
  simp only [escapedOperator, ParseState.inWord, csIsempty, List.reverse_nil, List.isEmpty_nil,
    Bool.not_true, Bool.false_eq_true, if_false, StateT.run_bind, charBelow_eq, hrest, pure_bind]
  cases xs with
  | nil =>
      have hend : i + 2 = text.length := by
        have h1 := lt_length_of_drop hnext
        have h2 := List.drop_eq_nil_iff.1 hrest
        omega
      simp only [List.head?_nil, reduceCtorEq, if_false]
      rw [hend]
      simp only [pure_bind, StateT.run_bind, charAt_length, csPush_run]
      simp [escapedChars]
  | cons c ys =>
      by_cases hdbl : c = o
      · simp only [List.head?_cons, hdbl, if_true, StateT.run_bind, StateT.run_pure, pure_bind,
          charAt_of_drop rest hrest, csPush_run, escapedChars]
        simp
        ring
      · simp only [List.head?_cons, Option.some.injEq, if_neg hdbl, StateT.run_bind,
          StateT.run_pure, pure_bind, charAt_of_drop rest hrest, csPush_run, escapedChars]
        simp

/-- A backslash and the operator character `o` in an unquoted word: when the word has characters it
    ends before the backslash, which is then passed over; otherwise the character after the operator
    is taken for the token. -/
theorem escapedOperator_run {o : CChar} {xs : List CChar} (s : ParseState) (w : List CChar)
    (i : Nat) (live : Int) (hdrop : text.drop i = chBackslash :: o :: xs)
    (ho : isOperator o = true) (hw : NulFree w) (hxs : NulFree xs) :
    ∃ w' i', (escapedOperator (text ++ chNul :: rest) text.length o (s.inWord w (i + 1))).run live
        = pure ((s.inWord w' i', .brk), live + w'.length - w.length) ∧ i ≤ i' ∧
      Reads (.word w) (chBackslash :: o :: xs) [cstr (w' ++ [chNul])] .neutral
        (text.drop (i' + 1)) := by
  have hnext : text.drop (i + 1) = o :: xs := drop_succ_of_drop hdrop
  by_cases hempty : w = []
  · subst hempty
    have hrest : text.drop (i + 2) = xs := drop_succ_of_drop hnext
    have htail : text.drop (i + 2 + 1) = xs.tail := by
      rw [← hrest, List.tail_drop]
    refine ⟨escapedChars o xs, i + 2, ?_, by omega, ?_⟩
    · rw [escapedOperator_first rest s live hdrop]
      simp
    · rw [htail]
      exact escapedChars_reads ho hxs
  · have hesc : Reads (.word w) (chBackslash :: o :: xs) [] (.wordEsc w) (o :: xs) :=
      Reads.of_step _ (by simp [Mode.step, isBlank])
    have hop : Reads (.wordEsc w) (o :: xs) [w] (.operator o) xs :=
      Reads.of_step _ (by
        simp only [Mode.step, if_neg (ne_backslash_of_isOperator ho), ho, if_true, if_neg hempty])
    refine ⟨w, i, ?_, le_refl _, ?_⟩
    · have hne : w.reverse.isEmpty = false := by simpa using hempty
      simp only [escapedOperator, ParseState.inWord, csIsempty, hne, Bool.not_false, if_true,
        StateT.run_pure, Nat.add_sub_cancel]
      simp
    · rw [cstr_append_nul hw, hnext]
      have hopen : Reads .neutral (o :: xs) [] (.operator o) xs :=
        Reads.of_step _ (by rw [Mode.step, opened_of_isOperator ho])
      have hboth := hesc.trans hop
      exact ⟨by rw [hboth.output, hopen.output]; simp, hboth.ending.trans hopen.ending.symm⟩

/-- One iteration of the word loop either reads on in the word or ends it. -/
theorem wordStep_run {c : CChar} {xs : List CChar} (s : ParseState) (w : List CChar) (i : Nat)
    (live : Int) (hdrop : text.drop i = c :: xs) (hb : isBlank c = false) (hw : NulFree w)
    (hcxs : NulFree (c :: xs)) :
    ∃ w' i' flow, (wordStep (text ++ chNul :: rest) text.length c (s.inWord w i)).run live
        = pure ((s.inWord w' i', flow), live + w'.length - w.length) ∧
      ((flow = .next ∧ i < i' ∧ NulFree w' ∧
          Reads (.word w) (c :: xs) [] (.word w') (text.drop i')) ∨
        (flow = .brk ∧ i ≤ i' ∧
          Reads (.word w) (c :: xs) [cstr (w' ++ [chNul])] .neutral (text.drop (i' + 1)))) := by
  obtain ⟨hc0, hxs⟩ := nulFree_cons.1 hcxs
  have hnext : text.drop (i + 1) = xs := drop_succ_of_drop hdrop
  by_cases hbs : c = chBackslash
  · subst hbs
    have hesc : Reads (.word w) (chBackslash :: xs) [] (.wordEsc w) xs :=
      Reads.of_step _ (by simp [Mode.step, isBlank])
    have hbelow : (charBelow (text ++ chNul :: rest) text.length (i + 1)).run live
        = pure (xs.head?, live) := by
      rw [charBelow_eq, hnext]
    simp only [wordStep, if_true, StateT.run_bind, inWord_idx, hbelow, pure_bind]
    cases xs with
    | nil =>
        refine ⟨w, i + 1, .next, by simp [ParseState.inWord], Or.inl ⟨rfl, by omega, hw, ?_⟩⟩
        rw [hnext]
        exact hesc.trans ⟨rfl, rfl⟩
    | cons d ys =>
        obtain ⟨hd0, hys⟩ := nulFree_cons.1 hxs
        have hnext2 : text.drop (i + 2) = ys := drop_succ_of_drop hnext
        simp only [List.head?_cons]
        by_cases hdbs : d = chBackslash
        · subst hdbs
          refine ⟨w ++ [chBackslash], i + 2, .next, ?_,
            Or.inl ⟨rfl, by omega, by simp [hw], ?_⟩⟩
          · simp only [if_true, StateT.run_bind, csPush_inWord, pure_bind, StateT.run_pure]
            simp [ParseState.inWord]
            ring
          · rw [hnext2]
            exact hesc.trans (Reads.of_step _ (by simp [Mode.step]))
        · by_cases ho : isOperator d = true
          · obtain ⟨w', i', hrun, hle, hreads⟩ :=
              escapedOperator_run rest s w i live hdrop ho hw hys
            refine ⟨w', i', .brk, ?_, Or.inr ⟨rfl, hle, hreads⟩⟩
            rcases isOperator_iff.1 ho with rfl | rfl | rfl
            · simpa [ParseState.inWord] using hrun
            · simpa [ParseState.inWord] using hrun
            · simpa [ParseState.inWord] using hrun
          · have hnop : d ≠ chPipe ∧ d ≠ chGt ∧ d ≠ chAmp := by
              have := mt isOperator_iff.2 ho
              tauto
            by_cases hnl : d = chNewline
            · subst hnl
              refine ⟨w, i + 2, .next, ?_, Or.inl ⟨rfl, by omega, hw, ?_⟩⟩
              · simp [ParseState.inWord]
              · rw [hnext2]
                exact hesc.trans (Reads.of_step _ (by simp [Mode.step, isOperator]))
            · refine ⟨w ++ [d], i + 2, .next, ?_, Or.inl ⟨rfl, by omega, by simp [hw, hd0], ?_⟩⟩
              · simp only [if_neg hdbs, if_neg hnop.1, if_neg hnop.2.1, if_neg hnop.2.2, if_neg hnl,
                  StateT.run_bind, csPush_inWord, pure_bind, StateT.run_pure]
                simp [ParseState.inWord]
                ring
              · rw [hnext2]
                refine hesc.trans (Reads.of_step _ ?_)
                simp only [Mode.step, if_neg hdbs, ho, if_neg hnl, Bool.false_eq_true, if_false]
  · by_cases hq : c = chDquote ∨ c = chSquote
    · refine ⟨w, i + 1, .next, ?_, Or.inl ⟨rfl, by omega, hw, ?_⟩⟩
      · simp only [wordStep, if_neg hbs, if_pos hq, StateT.run_pure]
        simp [ParseState.inWord]
      · rw [hnext]
        refine Reads.of_step _ ?_
        simp only [Mode.step, hb, if_neg hbs, if_pos hq, Bool.false_eq_true, if_false]
    · refine ⟨w ++ [c], i + 1, .next, ?_, Or.inl ⟨rfl, by omega, by simp [hw, hc0], ?_⟩⟩
      · simp only [wordStep, if_neg hbs, if_neg hq, StateT.run_bind, csPush_inWord, pure_bind,
          StateT.run_pure]
        simp [ParseState.inWord]
        ring
      · rw [hnext]
        exact reads_word xs hb hbs hq

/-- The word loop reads one token: the scan goes on behind the character it stops at. -/
theorem wordLoop_run (htext : NulFree text) (fuel : Nat) :
    ∀ (s : ParseState) (w : List CChar) (i : Nat) (live : Int), text.length - i < fuel →
      NulFree w →
      ∃ w' i', (wordLoop (text ++ chNul :: rest) text.length fuel (s.inWord w i)).run live
          = pure (s.inWord w' i', live + w'.length - w.length) ∧ i ≤ i' ∧
        Reads (.word w) (text.drop i) [cstr (w' ++ [chNul])] .neutral (text.drop (i' + 1)) := by
  induction fuel with
  | zero => intro s w i live hfuel; omega
  | succ fuel ih =>
      intro s w i live hfuel hw
      simp only [wordLoop, StateT.run_bind, inWord_idx, charBelow_eq, pure_bind]
      cases hdrop : text.drop i with
      | nil =>
          refine ⟨w, i, by simp, le_refl _, ?_⟩
          have hlen := congrArg List.length hdrop
          rw [List.length_drop, List.length_nil] at hlen
          rw [List.drop_eq_nil_of_le (by omega), cstr_append_nul hw]
          exact ⟨rfl, rfl⟩
      | cons c xs =>
          have hcxs : NulFree (c :: xs) := by
            intro d hd
            exact htext d (List.mem_of_mem_drop (hdrop ▸ hd))
          simp only [List.head?_cons]
          cases hb : isBlank c with
          | true =>
              refine ⟨w, i, ?_, le_refl _, ?_⟩
              · have hblank : ¬ (c ≠ chSpace ∧ c ≠ chTab) := by
                  simp only [isBlank, Bool.or_eq_true, beq_iff_eq] at hb
                  tauto
                rw [if_neg hblank]
                simp
              · rw [drop_succ_of_drop hdrop, cstr_append_nul hw]
                exact Reads.of_step xs (by simp [Mode.step, hb])
          | false =>
              have hblank : c ≠ chSpace ∧ c ≠ chTab := by
                simp only [isBlank, Bool.or_eq_false_iff, beq_eq_false_iff_ne] at hb
                exact hb
              obtain ⟨w', i', flow, hrun, hflow⟩ :=
                wordStep_run rest s w i live hdrop hb hw hcxs
              rw [if_pos hblank]
              simp only [StateT.run_bind, hrun, pure_bind]
              rcases hflow with ⟨rfl, hlt, hw', hreads⟩ | ⟨rfl, hle, hreads⟩
              · have hlen := lt_length_of_drop hdrop
                obtain ⟨w'', i'', hrun', hle', hreads'⟩ :=
                  ih s w' i' (live + w'.length - w.length) (by omega) hw'
                refine ⟨w'', i'', ?_, by omega, ?_⟩
                · simp only [hrun']
                  simp
                  ring
                · simpa using hreads.trans hreads'
              · exact ⟨w', i', by simp, hle, hreads⟩

/-! ## The scan loop -/

/-- The states of `parse_line` at the head of its scan loop, by mode. -/
def Mode.AtHead : Mode → ParseState → Prop
  | .neutral, s =>
      s.singleQuote = false ∧ s.doubleQuote = false ∧ s.stack = [] ∧ s.wstack = []
  | .single w, s =>
      s.singleQuote = true ∧ s.doubleQuote = false ∧ s.stack = [] ∧ s.wstack = w.reverse ∧ NulFree w
  | .double w, s =>
      s.singleQuote = false ∧ s.doubleQuote = true ∧ s.stack = [] ∧ s.wstack = w.reverse ∧ NulFree w
  | .doubleEsc w, s =>
      s.singleQuote = false ∧ s.doubleQuote = true ∧ s.stack = [chBackslash] ∧
        s.wstack = w.reverse ∧ NulFree w
  | _, _ => False

/-- The modes the loop head meets. -/
theorem AtHead.mode_cases {m : Mode} {s : ParseState} (hm : m.AtHead s) :
    m = .neutral ∨ (∃ w, m = .single w) ∨ (∃ w, m = .double w) ∨ ∃ w, m = .doubleEsc w := by
  cases m with
  | neutral => exact Or.inl rfl
  | single w => exact Or.inr (Or.inl ⟨w, rfl⟩)
  | double w => exact Or.inr (Or.inr (Or.inl ⟨w, rfl⟩))
  | doubleEsc w => exact Or.inr (Or.inr (Or.inr ⟨w, rfl⟩))
  | operator o => exact hm.elim
  | word w => exact hm.elim
  | wordEsc w => exact hm.elim
  | escOp o => exact hm.elim
  | comment => exact hm.elim

/-- The mode does not depend on the index. -/
theorem AtHead.setIdx {m : Mode} {s : ParseState} (hm : m.AtHead s) (i : Nat) :
    m.AtHead { s with idx := i } := by
  cases m <;> exact hm

/-- What an iteration that does not end the scan does: it reads on from mode `m`, completing the
    tokens it appends to `args`. -/
structure StepReads (text : List CChar) (m : Mode) (s s' : ParseState) : Prop where
  reads : ∃ m' ts, m'.AtHead s' ∧ s'.args.map cstr = s.args.map cstr ++ ts ∧
    Reads m (text.drop s.idx) ts m' (text.drop (s'.idx + 1))
  idx : s.idx ≤ s'.idx
  argc : s'.argc - s'.args.length = s.argc - s.args.length

theorem argc_saved (s : ParseState) (w : List CChar) :
    (s.saved w).argc - (s.saved w).args.length = s.argc - s.args.length := by
  simp [ParseState.saved]

theorem args_saved (s : ParseState) {w : List CChar} (hw : NulFree w) :
    (s.saved w).args.map cstr = s.args.map cstr ++ [w] := by
  simp [ParseState.saved, cstr_append_nul hw]

theorem parseStep_operator {o : CChar} {xs : List CChar} (s : ParseState) (base : Int)
    (hm : Mode.neutral.AtHead s) (hdrop : text.drop s.idx = o :: xs) (ho : isOperator o = true) :
    ∃ s', (operatorToken (text ++ chNul :: rest) text.length o s).run (base + s.blocks)
        = pure (s', base + s'.blocks) ∧ StepReads text .neutral s s' := by
  obtain ⟨hsq, hdq, hst, hw⟩ := hm
  have ho0 := ne_nul_of_isOperator ho
  have hopen : Reads .neutral (o :: xs) [] (.operator o) xs :=
    Reads.of_step xs (by rw [Mode.step, opened_of_isOperator ho])
  obtain ⟨s', hrun, hs'⟩ := operatorToken_run rest s base hdrop hw
  refine ⟨s', hrun, ?_⟩
  by_cases hdbl : xs.head? = some o
  · obtain ⟨ys, rfl⟩ := List.head?_eq_some_iff.1 hdbl
    rw [if_pos hdbl] at hs'
    subst hs'
    have htwice : Reads (.operator o) (o :: ys) [[o, o]] .neutral ys :=
      Reads.of_step ys (by simp [Mode.step])
    refine ⟨⟨.neutral, [[o, o]], ⟨hsq, hdq, hst, rfl⟩, ?_, ?_⟩, by simp, argc_saved s [o, o]⟩
    · exact args_saved s (by simp [ho0])
    · have hys : text.drop (s.idx + 1 + 1) = ys := drop_succ_of_drop (drop_succ_of_drop hdrop)
      simp only [hdrop, hys]
      exact hopen.trans htwice
  · rw [if_neg hdbl] at hs'
    subst hs'
    refine ⟨⟨.neutral, [[o]], ⟨hsq, hdq, hst, rfl⟩, ?_, ?_⟩, le_refl _, argc_saved s [o]⟩
    · exact args_saved s (by simp [ho0])
    · have hxs : text.drop ((s.saved [o]).idx + 1) = xs := drop_succ_of_drop hdrop
      rw [hdrop, hxs]
      exact hopen.trans (reads_operator hdbl)

theorem inWord_nil (s : ParseState) (hw : s.wstack = []) : s.inWord [] s.idx = s := by
  rw [ParseState.inWord, List.reverse_nil, ← hw]

/-- The branch of an unquoted word. -/
theorem parseStep_word {c : CChar} {xs : List CChar} (htext : NulFree text) (s : ParseState)
    (base : Int) (hm : Mode.neutral.AtHead s) (hdrop : text.drop s.idx = c :: xs)
    (hb : isBlank c = false) (hh : c ≠ chHash) (ho : isOperator c = false) (hs : c ≠ chSquote)
    (hd : c ≠ chDquote) :
    ∃ s', (do
        let s ← wordLoop (text ++ chNul :: rest) text.length (text.length + 1 - s.idx) s
        saveToken s : Alloc ParseState).run (base + s.blocks)
        = pure (s', base + s'.blocks) ∧ StepReads text .neutral s s' := by
  obtain ⟨hsq, hdq, hst, hw⟩ := hm
  have hlt := lt_length_of_drop hdrop
  obtain ⟨w, i, hrun, hle, hreads⟩ := wordLoop_run rest htext
    (text.length + 1 - s.idx) s [] s.idx (base + s.blocks) (by omega) nulFree_nil
  rw [inWord_nil s hw] at hrun
  have hopen := reads_neutral_word xs hb hh ho hs hd
  rw [← hdrop] at hopen
  refine ⟨(s.inWord w i).saved w, ?_, ⟨⟨.neutral, _, ⟨hsq, hdq, hst, rfl⟩, ?_,
    hopen.trans hreads⟩, hle, argc_saved _ _⟩⟩
  · simp only [StateT.run_bind, hrun, pure_bind, saveToken_run, blocks_saved]
    simp [ParseState.inWord, ParseState.blocks, hw, hst]
    ring
  · simp [ParseState.saved, ParseState.inWord]

theorem parseStep_neutral {c : CChar} {xs : List CChar} (htext : NulFree text) (s : ParseState)
    (base : Int) (hm : Mode.neutral.AtHead s) (hdrop : text.drop s.idx = c :: xs) :
    ∃ s' flow, (parseStep (text ++ chNul :: rest) text.length s).run (base + s.blocks)
        = pure ((s', flow), base + s'.blocks) ∧
      ((flow = .next ∧ StepReads text .neutral s s') ∨
        (flow = .brk ∧ s' = s ∧ c = chHash)) := by
  obtain ⟨hsq, hdq, hst, hw⟩ := id hm
  have hnext := drop_succ_of_drop hdrop
  have hread := charAt_of_drop rest hdrop (base + s.blocks)
  simp only [parseStep, StateT.run_bind, hread, pure_bind, hsq, hdq, Bool.not_false, Bool.and_true,
    Bool.true_and, Bool.false_and, Bool.and_false, Bool.false_eq_true, if_false]
  cases hb : isBlank c with
  | true =>
      have hblank : (c == chSpace || c == chTab) = true := hb
      refine ⟨s, .next, by rw [if_pos hblank]; rfl, Or.inl ⟨rfl, ⟨.neutral, [], hm, by simp, ?_⟩,
        le_refl _, rfl⟩⟩
      rw [hdrop, hnext]
      exact Reads.of_step xs (by rw [Mode.step, opened_of_isBlank hb])
  | false =>
  have hblank : ¬ (c == chSpace || c == chTab) = true := by
    intro h
    exact absurd (show isBlank c = true from h) (by rw [hb]; simp)
  rw [if_neg hblank]
  by_cases hh : c = chHash
  · subst hh
    exact ⟨s, .brk, by simp, Or.inr ⟨rfl, rfl, rfl⟩⟩
  by_cases ho : isOperator c = true
  · obtain ⟨s', hrun, hs'⟩ := parseStep_operator rest s base hm hdrop ho
    refine ⟨s', .next, ?_, Or.inl ⟨rfl, hs'⟩⟩
    rcases isOperator_iff.1 ho with rfl | rfl | rfl
    · simp [hrun]
    · simp [hrun]
    · simp [hrun]
  have hnop : c ≠ chPipe ∧ c ≠ chGt ∧ c ≠ chAmp := by
    have := mt isOperator_iff.2 ho
    tauto
  by_cases hs : c = chSquote
  · subst hs
    refine ⟨{ s with singleQuote := true }, .next, by simp [hdq, ParseState.blocks], Or.inl ⟨rfl,
      ⟨.single [], [], ⟨rfl, hdq, hst, by simpa using hw, nulFree_nil⟩, by simp, ?_⟩,
      le_refl _, rfl⟩⟩
    rw [hdrop]
    simp only [hnext]
    exact Reads.of_step xs rfl
  by_cases hd : c = chDquote
  · subst hd
    refine ⟨{ s with doubleQuote := true }, .next, by simp [hsq, ParseState.blocks], Or.inl ⟨rfl,
      ⟨.double [], [], ⟨hsq, rfl, hst, by simpa using hw, nulFree_nil⟩, by simp, ?_⟩,
      le_refl _, rfl⟩⟩
    rw [hdrop]
    simp only [hnext]
    exact Reads.of_step xs rfl
  obtain ⟨s', hrun, hs'⟩ := parseStep_word rest htext s base hm hdrop hb hh
    (by simpa using ho) hs hd
  refine ⟨s', .next, ?_, Or.inl ⟨rfl, hs'⟩⟩
  simp only [beq_iff_eq, if_neg hh, if_neg hnop.1, if_neg hnop.2.1, if_neg hnop.2.2, if_neg hs,
    if_neg hd, if_true]
  simp only [StateT.run_bind] at hrun ⊢
  rw [← bind_assoc, hrun]
  rfl

theorem unescape_nulFree {c : CChar} (hc : c ≠ chNul) : NulFree (unescape c) := by
  unfold unescape
  split_ifs <;> simp_all

/-- The six escapes between double quotes and the fallback that keeps the backslash. -/
theorem doubleEscape_run (c : CChar) (s : ParseState) (w : List CChar) (live : Int)
    (hst : s.stack = [chBackslash]) (hw : s.wstack = w.reverse) :
    (doubleEscape c s).run live
      = pure ({ s with stack := [], wstack := (w ++ unescape c).reverse },
          live - 1 + (unescape c).length) := by
  simp only [doubleEscape, StateT.run_bind, hst, csPeek_run, pure_bind, and_true]
  unfold unescape
  split_ifs with h1 h2 h3 h4 h5 h6
  · simp [hw]
  · simp [hw]
  · simp [hw]
  · simp [hw]
  · simp [hw]
  · simp [hw]
  · simp [hw]
    ring

theorem parseStep_single {c : CChar} {xs w : List CChar} (s : ParseState) (base : Int)
    (hm : (Mode.single w).AtHead s) (hdrop : text.drop s.idx = c :: xs) (hc : c ≠ chNul) :
    ∃ s', (parseStep (text ++ chNul :: rest) text.length s).run (base + s.blocks)
        = pure ((s', .next), base + s'.blocks) ∧ StepReads text (.single w) s s' := by
  obtain ⟨hsq, hdq, hst, hw, hwn⟩ := hm
  have hnext := drop_succ_of_drop hdrop
  have hread := charAt_of_drop rest hdrop (base + s.blocks)
  simp only [parseStep, StateT.run_bind, hread, pure_bind, hsq, hdq]
  by_cases hs : c = chSquote
  · subst hs
    refine ⟨({ s with singleQuote := false } : ParseState).saved w, ?_, ⟨.neutral, [w],
      ⟨rfl, hdq, hst, rfl⟩, args_saved _ hwn, ?_⟩, le_refl _, argc_saved _ w⟩
    · simp [saveToken_run, ParseState.blocks, ParseState.saved, hw, hdq]
      split_ifs <;> ring
    · rw [hdrop]
      show Reads (.single w) (chSquote :: xs) [w] .neutral (text.drop (s.idx + 1))
      rw [hnext]
      exact Reads.of_step xs (by simp [Mode.step])
  · have hs' : (c == chSquote) = false := by simpa using hs
    refine ⟨{ s with wstack := c :: s.wstack }, ?_, ⟨.single (w ++ [c]), [],
      ⟨hsq, hdq, hst, by simp [hw], by simp [hwn, hc]⟩, by simp, ?_⟩, le_refl _, rfl⟩
    · simp [bne, hs', hsq, hdq, ParseState.blocks]
      ring
    · rw [hdrop]
      show Reads (.single w) (c :: xs) [] (.single (w ++ [c])) (text.drop (s.idx + 1))
      rw [hnext]
      exact Reads.of_step xs (by rw [Mode.step, if_neg hs])

theorem parseStep_double {c : CChar} {xs w : List CChar} (s : ParseState) (base : Int)
    (hm : (Mode.double w).AtHead s) (hdrop : text.drop s.idx = c :: xs) (hc : c ≠ chNul) :
    ∃ s', (parseStep (text ++ chNul :: rest) text.length s).run (base + s.blocks)
        = pure ((s', .next), base + s'.blocks) ∧ StepReads text (.double w) s s' := by
  obtain ⟨hsq, hdq, hst, hw, hwn⟩ := hm
  have hnext := drop_succ_of_drop hdrop
  have hread := charAt_of_drop rest hdrop (base + s.blocks)
  simp only [parseStep, StateT.run_bind, hread, pure_bind, hsq, hdq, hst, csIsempty]
  by_cases hd : c = chDquote
  · subst hd
    refine ⟨({ s with doubleQuote := false } : ParseState).saved w, ?_, ⟨.neutral, [w],
      ⟨hsq, rfl, hst, rfl⟩, args_saved _ hwn, ?_⟩, le_refl _, argc_saved _ w⟩
    · simp [saveToken_run, ParseState.blocks, ParseState.saved, hw, hst, hsq]
      split_ifs <;> ring
    · rw [hdrop]
      show Reads (.double w) (chDquote :: xs) [w] .neutral (text.drop (s.idx + 1))
      rw [hnext]
      exact Reads.of_step xs (by simp [Mode.step])
  have hd' : (c == chDquote) = false := by simpa using hd
  by_cases hbs : c = chBackslash
  · subst hbs
    refine ⟨{ s with stack := [chBackslash] }, ?_, ⟨.doubleEsc w, [],
      ⟨hsq, hdq, rfl, hw, hwn⟩, by simp, ?_⟩, le_refl _, rfl⟩
    · simp [hsq, hdq, hst, ParseState.blocks]
      ring
    · rw [hdrop]
      show Reads (.double w) (chBackslash :: xs) [] (.doubleEsc w) (text.drop (s.idx + 1))
      rw [hnext]
      exact Reads.of_step xs (by simp [Mode.step])
  · have hbs' : (c == chBackslash) = false := by simpa using hbs
    refine ⟨{ s with wstack := c :: s.wstack }, ?_, ⟨.double (w ++ [c]), [],
      ⟨hsq, hdq, hst, by simp [hw], by simp [hwn, hc]⟩, by simp, ?_⟩, le_refl _, rfl⟩
    · simp [bne, hd', hbs', hsq, hdq, hst, ParseState.blocks]
      ring
    · rw [hdrop]
      show Reads (.double w) (c :: xs) [] (.double (w ++ [c])) (text.drop (s.idx + 1))
      rw [hnext]
      exact Reads.of_step xs (by rw [Mode.step, if_neg hd, if_neg hbs])

theorem parseStep_doubleEsc {c : CChar} {xs w : List CChar} (s : ParseState) (base : Int)
    (hm : (Mode.doubleEsc w).AtHead s) (hdrop : text.drop s.idx = c :: xs) (hc : c ≠ chNul) :
    ∃ s', (parseStep (text ++ chNul :: rest) text.length s).run (base + s.blocks)
        = pure ((s', .next), base + s'.blocks) ∧ StepReads text (.doubleEsc w) s s' := by
  obtain ⟨hsq, hdq, hst, hw, hwn⟩ := hm
  have hnext := drop_succ_of_drop hdrop
  have hread := charAt_of_drop rest hdrop (base + s.blocks)
  have hempty : csIsempty s.stack = false := by rw [hst]; rfl
  refine ⟨{ s with stack := [], wstack := (w ++ unescape c).reverse }, ?_, ⟨.double (w ++ unescape c),
    [], ⟨hsq, hdq, rfl, rfl, by simp [hwn, unescape_nulFree hc]⟩, by simp, ?_⟩, le_refl _, rfl⟩
  · simp only [parseStep, StateT.run_bind, hread, pure_bind, hsq, hdq, hempty]
    simp [doubleEscape_run c s w _ hst hw, hsq, hdq, hst, hw, ParseState.blocks]
    ring
  · rw [hdrop]
    show Reads (.doubleEsc w) (c :: xs) [] (.double (w ++ unescape c)) (text.drop (s.idx + 1))
    rw [hnext]
    exact Reads.of_step xs rfl

/-- One iteration of the scan loop either reads on or stops at a comment. -/
theorem parseStep_run (htext : NulFree text) {c : CChar} {xs : List CChar} (s : ParseState)
    (m : Mode) (base : Int) (hm : m.AtHead s) (hdrop : text.drop s.idx = c :: xs) :
    ∃ s' flow, (parseStep (text ++ chNul :: rest) text.length s).run (base + s.blocks)
        = pure ((s', flow), base + s'.blocks) ∧
      ((flow = .next ∧ StepReads text m s s') ∨
        (flow = .brk ∧ s' = s ∧ m = .neutral ∧ c = chHash)) := by
  have hc : c ≠ chNul := htext c (List.mem_of_mem_drop (by rw [hdrop]; exact List.mem_cons_self ..))
  rcases AtHead.mode_cases hm with rfl | ⟨w, rfl⟩ | ⟨w, rfl⟩ | ⟨w, rfl⟩
  · obtain ⟨s', flow, hrun, hnext | ⟨hbrk, hs', hhash⟩⟩ :=
      parseStep_neutral rest htext s base hm hdrop
    · exact ⟨s', flow, hrun, Or.inl hnext⟩
    · exact ⟨s', flow, hrun, Or.inr ⟨hbrk, hs', rfl, hhash⟩⟩
  · obtain ⟨s', hrun, hreads⟩ := parseStep_single rest s base hm hdrop hc
    exact ⟨s', .next, hrun, Or.inl ⟨rfl, hreads⟩⟩
  · obtain ⟨s', hrun, hreads⟩ := parseStep_double rest s base hm hdrop hc
    exact ⟨s', .next, hrun, Or.inl ⟨rfl, hreads⟩⟩
  · obtain ⟨s', hrun, hreads⟩ := parseStep_doubleEsc rest s base hm hdrop hc
    exact ⟨s', .next, hrun, Or.inl ⟨rfl, hreads⟩⟩

/-- A mode at the head of the loop flushes no token; the flags say what is open. -/
theorem AtHead.flush {m : Mode} {s : ParseState} (hm : m.AtHead s) : m.flush = [] := by
  rcases AtHead.mode_cases hm with rfl | ⟨w, rfl⟩ | ⟨w, rfl⟩ | ⟨w, rfl⟩
  · rfl
  · rfl
  · rfl
  · rfl

theorem AtHead.ending {m : Mode} {s : ParseState} (hm : m.AtHead s) :
    m.ending = (s.singleQuote, s.doubleQuote, false) := by
  rcases AtHead.mode_cases hm with rfl | ⟨w, rfl⟩ | ⟨w, rfl⟩ | ⟨w, rfl⟩
  · rw [hm.1, hm.2.1]; rfl
  · rw [hm.1, hm.2.1]; rfl
  · rw [hm.1, hm.2.1]; rfl
  · rw [hm.1, hm.2.1]; rfl

/-- A comment reads the rest of the line without a token. -/
theorem comment_reads (xs : List CChar) : Reads .comment xs [] .comment [] := by
  induction xs with
  | nil => exact Reads.refl _ _
  | cons c xs ih => exact (Reads.of_step xs rfl).trans ih

/-- **The scan loop refines the scanner**: it ends, its tokens are the scanner's, and its flags and
    its index tell what is open when it ends. -/
theorem parseLoop_run (htext : NulFree text) (base : Int) (fuel : Nat) :
    ∀ (s : ParseState) (m : Mode), text.length - s.idx < fuel → m.AtHead s →
      ∃ s', (parseLoop (text ++ chNul :: rest) text.length fuel s).run (base + s.blocks)
          = pure (s', base + s'.blocks) ∧
        s'.args.map cstr = s.args.map cstr ++ scanner.output m (text.drop s.idx) ∧
        s'.argc - s'.args.length = s.argc - s.args.length ∧
        (scanner.state m (text.drop s.idx)).ending
          = (s'.singleQuote, s'.doubleQuote, decide (s'.idx < text.length)) := by
  induction fuel with
  | zero => intro s m hfuel; omega
  | succ fuel ih =>
      intro s m hfuel hm
      cases hdrop : text.drop s.idx with
      | nil =>
          have hlen := congrArg List.length hdrop
          rw [List.length_drop, List.length_nil] at hlen
          have hge : ¬ s.idx < text.length := by omega
          refine ⟨s, by simp [parseLoop, hge], ?_, rfl, ?_⟩
          · rw [Transducer.output_nil, scanner_flush, AtHead.flush hm, List.append_nil]
          · rw [Transducer.state_nil, AtHead.ending hm, decide_eq_false hge]
      | cons c xs =>
          have hlt := lt_length_of_drop hdrop
          obtain ⟨s', flow, hrun, hflow⟩ :=
            parseStep_run rest htext s m base hm hdrop
          simp only [parseLoop, if_pos hlt, StateT.run_bind, hrun, pure_bind]
          rcases hflow with ⟨rfl, hreads⟩ | ⟨rfl, rfl, rfl, rfl⟩
          · obtain ⟨⟨m', ts, hm', hargs, hread⟩, hidx, hargc⟩ := hreads
            have hhead := AtHead.setIdx hm' (s'.idx + 1)
            obtain ⟨s'', hrun', hargs', hargc', hend⟩ :=
              ih { s' with idx := s'.idx + 1 } m' (by simp only; omega) hhead
            refine ⟨s'', hrun', ?_, hargc'.trans hargc, ?_⟩
            · rw [hargs', ← hdrop, hread.output]
              simp only [hargs, List.append_assoc]
            · rw [← hdrop, hread.ending]
              exact hend
          · obtain ⟨hsq, hdq, -, -⟩ := hm
            have hcomment : Reads .neutral (chHash :: xs) [] .comment [] :=
              (Reads.of_step xs rfl).trans (comment_reads xs)
            refine ⟨s', rfl, ?_, rfl, ?_⟩
            · rw [hcomment.output]
              simp [Mode.flush]
            · rw [hcomment.ending, hsq, hdq, decide_eq_true hlt]
              rfl

end Line

/-! ## The whole parser -/

/-- The scan of a C string, for any text without NUL and whatever follows its terminator. -/
theorem parseScan_run {text : List CChar} (htext : NulFree text) (rest : List CChar)
    (live : Int) :
    ∃ s, (parseScan (text ++ chNul :: rest)).run live
        = pure ((s, text.length), live + 2 + s.blocks) ∧
      s.args.map cstr = tokens text ∧ s.argc = s.args.length ∧
      (modeAfter text).ending = (s.singleQuote, s.doubleQuote, decide (s.idx < text.length)) := by
  obtain ⟨s, hrun, hargs, hargc, hend⟩ := parseLoop_run rest htext (live + 2)
    (text.length + 1)
    { stack := [], wstack := [], args := [], argc := 0, singleQuote := false,
      doubleQuote := false, idx := 0 } .neutral (by simp) ⟨rfl, rfl, rfl, rfl⟩
  refine ⟨s, ?_, by simpa [tokens] using hargs, by simpa [sub_eq_zero] using hargc,
    by simpa [modeAfter] using hend⟩
  have hblocks : live + 1 + 1 = live + 2 + ParseState.blocks
      { stack := [], wstack := [], args := [], argc := 0, singleQuote := false,
        doubleQuote := false, idx := 0 } := by
    simp [ParseState.blocks]
    ring
  simp only [parseScan, StateT.run_bind, csInit_run, pure_bind, strlen_append_nul htext,
    StateT.run_pure, hblocks, hrun]

/-- **`parse_line` refines the scanner**: on every C string it returns the scanner's tokens and
    their number, and all it leaves allocated is the pair, the array and one block a token. -/
theorem parseLine_run {text : List CChar} (htext : NulFree text) (rest : List CChar) (live : Int) :
    ∃ p : Pair (List CChar), (parseLine (text ++ chNul :: rest)).run live
        = pure (p, live + 1 + p.first.length + if p.first = [] then 0 else 1) ∧
      p.first.map cstr = tokens text ∧ p.second = p.first.length := by
  obtain ⟨s, hrun, hargs, hargc, -⟩ := parseScan_run htext rest live
  refine ⟨⟨s.args, s.argc⟩, ?_, hargs, hargc⟩
  simp only [parseLine, StateT.run_bind, hrun, pure_bind, csFree_run, free_run, makePair,
    malloc_run, StateT.run_pure, ParseState.blocks, pure_inj, Prod.mk.injEq, true_and]
  ring

theorem parseTokens_eq {text : List CChar} (htext : NulFree text) :
    parseTokens text = pure (tokens text) := by
  obtain ⟨p, hrun, htok, hlen⟩ := parseLine_run htext [] 0
  simp only [parseTokens, hrun, pure_bind, hlen, Int.toNat_natCast, List.take_length, htok]

theorem scanLine_run {text : List CChar} (htext : NulFree text) :
    ∃ s, scanLine text = pure s ∧
      (modeAfter text).ending = (s.singleQuote, s.doubleQuote, decide (s.idx < text.length)) := by
  obtain ⟨s, hrun, -, -, hend⟩ := parseScan_run htext [] 0
  exact ⟨s, by simp only [scanLine, hrun, pure_bind], hend⟩

/-- A scan that leaves no quote and no comment open. -/
theorem scanLine_closed {text : List CChar} (htext : NulFree text)
    (hquote : (modeAfter text).quoteOpen = false) (hcomment : (modeAfter text).inComment = false) :
    ∃ s, scanLine text = pure s ∧ s.singleQuote = false ∧ s.doubleQuote = false ∧
      ¬ s.idx < text.length := by
  obtain ⟨s, hs, hend⟩ := scanLine_run htext
  rw [Mode.ending, Prod.mk.injEq, Prod.mk.injEq] at hend
  obtain ⟨hsingle, hdouble, hidx⟩ := hend
  rw [Mode.quoteOpen, Bool.or_eq_false_iff] at hquote
  refine ⟨s, hs, hsingle.symm.trans hquote.1, hdouble.symm.trans hquote.2, ?_⟩
  exact of_decide_eq_false (hidx.symm.trans hcomment)

/-- The flags and the index at the end of a scan are what its mode leaves open. -/
theorem scanLine_ending {text : List CChar} (htext : NulFree text) {s : ParseState}
    (hs : scanLine text = pure s) :
    (modeAfter text).ending = (s.singleQuote, s.doubleQuote, decide (s.idx < text.length)) := by
  obtain ⟨s', hs', hend⟩ := scanLine_run htext
  rw [hs, pure_inj] at hs'
  rw [hend, hs']

end SysProg.Shell
