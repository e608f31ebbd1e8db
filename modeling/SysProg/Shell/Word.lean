import SysProg.Shell.Tokens

set_option autoImplicit false

/-! # The unquoted word

How the scanner goes through an unquoted word, and what follows for the texts it meets there. In the
loop of `parse_line` for such words only a blank ends the word: operators are characters like any
other, quotes are dropped, and a backslash protects every character but an operator. -/

namespace SysProg.Shell

/-! ## One character -/

theorem isOperator_of_isBlank {c : CChar} (h : isBlank c = true) : isOperator c = false := by
  simp only [isBlank, Bool.or_eq_true, beq_iff_eq] at h
  rcases h with rfl | rfl <;> decide

theorem ne_backslash_of_isBlank {c : CChar} (h : isBlank c = true) : c ≠ chBackslash := by
  rintro rfl
  exact absurd h (by decide)

theorem isBlank_of_isOperator {c : CChar} (h : isOperator c = true) : isBlank c = false := by
  rcases isOperator_iff.1 h with rfl | rfl | rfl <;> decide

/-- In a word, a character that is no blank, backslash or quote is taken as it is. -/
theorem step_word_char {c : CChar} (hb : isBlank c = false) (hbs : c ≠ chBackslash)
    (hd : c ≠ chDquote) (hs : c ≠ chSquote) (w : List CChar) :
    Mode.step (.word w) c = (.word (w ++ [c]), []) := by
  simp only [Mode.step, hb, if_neg hbs, hd, hs, or_self, Bool.false_eq_true, if_false]

theorem step_word_quote {c : CChar} (hq : c = chDquote ∨ c = chSquote) (w : List CChar) :
    Mode.step (.word w) c = (.word w, []) := by
  rcases hq with rfl | rfl <;> simp [Mode.step, isBlank]

/-- After a backslash in a word, a character that is no operator, backslash or newline is taken as it
    is. -/
theorem step_wordEsc_char {c : CChar} (ho : isOperator c = false) (hbs : c ≠ chBackslash)
    (hn : c ≠ chNewline) (w : List CChar) :
    Mode.step (.wordEsc w) c = (.word (w ++ [c]), []) := by
  simp only [Mode.step, ho, if_neg hbs, if_neg hn, Bool.false_eq_true, if_false]

theorem step_word_blank {c : CChar} (hb : isBlank c = true) (w : List CChar) :
    Mode.step (.word w) c = (.neutral, [w]) := by
  simp only [Mode.step, hb, if_true]

theorem step_word_backslash (w : List CChar) :
    Mode.step (.word w) chBackslash = (.wordEsc w, []) := by
  simp [Mode.step, isBlank]

theorem step_wordEsc_backslash (w : List CChar) :
    Mode.step (.wordEsc w) chBackslash = (.word (w ++ [chBackslash]), []) := by
  simp [Mode.step]

theorem step_wordEsc_operator {o : CChar} (ho : isOperator o = true) {w : List CChar}
    (hw : w ≠ []) : Mode.step (.wordEsc w) o = (.operator o, [w]) := by
  simp only [Mode.step, ho, if_neg (ne_backslash_of_isOperator ho), if_neg hw, if_true]

theorem step_wordEsc_nil_operator {o : CChar} (ho : isOperator o = true) :
    Mode.step (.wordEsc []) o = (.escOp o, []) := by
  simp only [Mode.step, ho, if_neg (ne_backslash_of_isOperator ho), if_true]

theorem step_wordEsc_newline (w : List CChar) :
    Mode.step (.wordEsc w) chNewline = (.word w, []) := by
  simp [Mode.step, isOperator]

theorem output_of_step {m m' : Mode} {c : CChar} {ts : List (List CChar)}
    (h : m.step c = (m', ts)) (t : List CChar) :
    scanner.output m (c :: t) = ts ++ scanner.output m' t := by
  rw [Transducer.output_cons, scanner_step, h]

theorem output_neutral_cons (c : CChar) (t : List CChar) :
    scanner.output .neutral (c :: t) = scanner.output (.opened c) t := rfl

/-- Two tokens that agree up to different characters differ. -/
theorem cons_append_ne {w u v : List CChar} {c d : CChar} (h : c ≠ d)
    (r r' : List (List CChar)) : (w ++ c :: u) :: r ≠ (w ++ d :: v) :: r' := by
  intro heq
  have h1 := (List.cons.inj heq).1
  exact h (List.cons.inj (List.append_cancel_left h1)).1

/-! ## Outputs from inside a word -/

/-- From inside a nonempty word the scanner adds the same characters to it and then emits the same
    tokens, whatever the word is. -/
theorem output_word (t : List CChar) :
    (∃ u r, ∀ w, w ≠ [] → scanner.output (.word w) t = (w ++ u) :: r) ∧
      ∃ u r, ∀ w, w ≠ [] → scanner.output (.wordEsc w) t = (w ++ u) :: r := by
  induction t with
  | nil =>
      have hend : ∀ w : List CChar, w ≠ [] → [w] = (w ++ []) :: [] := fun w _ => by simp
      exact ⟨⟨[], [], hend⟩, ⟨[], [], hend⟩⟩
  | cons c t ih =>
      obtain ⟨⟨u, r, hword⟩, ⟨ue, re, hesc⟩⟩ := ih
      -- a character that is put at the end of the word
      have hpush : ∀ w, scanner.output (.word (w ++ [c])) t = (w ++ c :: u) :: r := by
        intro w
        rw [hword _ (by simp), List.append_assoc]
        rfl
      constructor
      · by_cases hb : isBlank c = true
        · refine ⟨[], scanner.output .neutral t, fun w _ => ?_⟩
          rw [output_of_step (step_word_blank hb w), List.append_nil]
          rfl
        by_cases hbs : c = chBackslash
        · subst hbs
          refine ⟨ue, re, fun w hw => ?_⟩
          rw [output_of_step (step_word_backslash w)]
          exact hesc w hw
        by_cases hq : c = chDquote ∨ c = chSquote
        · refine ⟨u, r, fun w hw => ?_⟩
          rw [output_of_step (step_word_quote hq w)]
          exact hword w hw
        · obtain ⟨hd, hs⟩ := not_or.1 hq
          refine ⟨c :: u, r, fun w _ => ?_⟩
          rw [output_of_step (step_word_char (Bool.eq_false_iff.2 hb) hbs hd hs w)]
          exact hpush w
      · by_cases hbs : c = chBackslash
        · subst hbs
          refine ⟨chBackslash :: u, r, fun w _ => ?_⟩
          rw [output_of_step (step_wordEsc_backslash w)]
          exact hpush w
        by_cases ho : isOperator c = true
        · refine ⟨[], scanner.output (.operator c) t, fun w hw => ?_⟩
          rw [output_of_step (step_wordEsc_operator ho hw), List.append_nil]
          rfl
        by_cases hn : c = chNewline
        · subst hn
          refine ⟨u, r, fun w hw => ?_⟩
          rw [output_of_step (step_wordEsc_newline w)]
          exact hword w hw
        · refine ⟨c :: u, r, fun w _ => ?_⟩
          rw [output_of_step (step_wordEsc_char (Bool.eq_false_iff.2 ho) hbs hn w)]
          exact hpush w

/-- The first token from inside a nonempty word extends it. -/
theorem output_word_ne {v w : List CChar} (hv : v ≠ []) (hlt : w.length < v.length)
    (t : List CChar) (r : List (List CChar)) : scanner.output (.word v) t ≠ w :: r := by
  obtain ⟨⟨u, r', hword⟩, -⟩ := output_word t
  rw [hword v hv]
  intro h
  have hlen := congrArg List.length (List.cons.inj h).1
  rw [List.length_append] at hlen
  omega

/-! ## Operators next to a word -/

/-- The operators. -/
def operatorTexts : List (List CChar) :=
  [[chPipe], [chPipe, chPipe], [chGt], [chGt, chGt], [chAmp], [chAmp, chAmp]]

theorem mem_operatorTexts {op : List CChar} (h : op ∈ operatorTexts) :
    ∃ o, isOperator o = true ∧ (op = [o] ∨ op = [o, o]) := by
  simp only [operatorTexts, List.mem_cons, List.not_mem_nil, or_false] at h
  rcases h with rfl | rfl | rfl | rfl | rfl | rfl
  · exact ⟨chPipe, by decide, Or.inl rfl⟩
  · exact ⟨chPipe, by decide, Or.inr rfl⟩
  · exact ⟨chGt, by decide, Or.inl rfl⟩
  · exact ⟨chGt, by decide, Or.inr rfl⟩
  · exact ⟨chAmp, by decide, Or.inl rfl⟩
  · exact ⟨chAmp, by decide, Or.inr rfl⟩

/-- An unquoted word is not complete. -/
def Mode.wordOpen : Mode → Bool
  | .word _ => true
  | .wordEsc _ => true
  | _ => false

/-- The only way to be just after an operator character is to have read one. -/
theorem step_eq_operator {m : Mode} {c o : CChar} (h : (m.step c).1 = .operator o) : c = o := by
  have hopened : Mode.opened c = .operator o → c = o := by
    unfold Mode.opened
    split_ifs <;> simp
  cases m with
  | neutral => exact hopened h
  | operator o' =>
      simp only [Mode.step] at h
      split at h
      · exact absurd h (by simp)
      · exact hopened h
  | single w => simp only [Mode.step] at h; split at h <;> simp at h
  | double w => simp only [Mode.step] at h; split_ifs at h
  | doubleEsc w => simp [Mode.step] at h
  | word w => simp only [Mode.step] at h; split_ifs at h
  | wordEsc w =>
      simp only [Mode.step] at h
      split_ifs at h with hbs ho hw
      simpa using h
  | escOp o' => simp [Mode.step] at h
  | comment => simp [Mode.step] at h

theorem suffix_of_modeAfter_operator {s : List CChar} {o : CChar}
    (h : modeAfter s = .operator o) : [o] <:+ s := by
  rcases List.eq_nil_or_concat s with rfl | ⟨s', c, rfl⟩
  · simp [modeAfter] at h
  · rw [List.concat_eq_append, modeAfter_concat] at h
    rw [List.concat_eq_append, step_eq_operator h]
    exact List.suffix_append s' _

/-- Between tokens, an operator that nothing doubles is a token. -/
theorem reads_operatorText {op : List CChar} {o : CChar} (ho : isOperator o = true)
    (hop : op = [o] ∨ op = [o, o]) {ys : List CChar} (hys : ys.head? ≠ some o) :
    Reads .neutral (op ++ ys) [op] .neutral ys := by
  have hopen : ∀ zs, Reads .neutral (o :: zs) [] (.operator o) zs := fun zs =>
    Reads.of_step zs (by rw [Mode.step, opened_of_isOperator ho])
  rcases hop with rfl | rfl
  · exact (hopen ys).trans (reads_operator hys)
  · exact (hopen (o :: ys)).trans (Reads.of_step ys (by rw [Mode.step, if_pos rfl]))

/-- In a word, an operator is part of the word. -/
theorem output_word_operatorText {op : List CChar} {o : CChar} (ho : isOperator o = true)
    (hop : op = [o] ∨ op = [o, o]) (w t : List CChar) :
    scanner.output (.word w) (op ++ t) = scanner.output (.word (w ++ op)) t := by
  have hd : o ≠ chDquote := by rintro rfl; exact absurd ho (by decide)
  have hs : o ≠ chSquote := by rintro rfl; exact absurd ho (by decide)
  have hstep := step_word_char (isBlank_of_isOperator ho) (ne_backslash_of_isOperator ho) hd hs
  rcases hop with rfl | rfl
  · exact output_of_step (hstep w) t
  · have h := (output_of_step (hstep w) (o :: t)).trans (output_of_step (hstep (w ++ [o])) t)
    rwa [List.append_assoc] at h

/-- **When an operator needs no blanks**: exactly when the text before it does not end inside an
    unquoted word. -/
theorem parseLine_operator (s1 t op : List CChar) (st : ParseState) (h1 : NulFree s1)
    (h2 : NulFree t) (hscan : scanLine s1 = pure st) (hsq : st.singleQuote = false)
    (hdq : st.doubleQuote = false) (hend : ¬ st.idx < s1.length)
    (hlast : ∀ c, s1.getLast? = some c → c ≠ chBackslash ∧ c ≠ chPipe ∧ c ≠ chGt ∧ c ≠ chAmp)
    (hop : op ∈ operatorTexts) (ht : t.head? ≠ op.getLast?) :
    parseTokens (s1 ++ op ++ t) = parseTokens (s1 ++ [chSpace] ++ op ++ [chSpace] ++ t) ↔
      (modeAfter s1).wordOpen = false := by
  obtain ⟨o, ho, hop⟩ := mem_operatorTexts hop
  have ho0 := ne_nul_of_isOperator ho
  have hopnul : NulFree op := by rcases hop with rfl | rfl <;> simp [ho0]
  have hhead : t.head? ≠ some o := by rcases hop with rfl | rfl <;> exact ht
  have hblank : isBlank chSpace = true := by decide
  have hspace : (chSpace :: t).head? ≠ some o := by
    intro h
    rw [← Option.some.inj h] at ho
    exact absurd ho (by decide)
  -- with the blanks: what is pending is complete, then the operator, then `t`
  have hspaced : Reads .neutral (op ++ chSpace :: t) [op] .neutral t :=
    (reads_operatorText ho hop hspace).trans
      (Reads.of_step t (by rw [Mode.step, opened_of_isBlank hblank]))
  have hending := scanLine_ending h1 hscan
  rw [hsq, hdq, decide_eq_false hend] at hending
  have hcut : ∀ ys, tokens (s1 ++ ys)
      = scanner.emitted .neutral s1 ++ scanner.output (modeAfter s1) ys :=
    fun ys => scanner.output_append .neutral s1 ys
  have hright : s1 ++ [chSpace] ++ op ++ [chSpace] ++ t = s1 ++ chSpace :: (op ++ chSpace :: t) := by
    simp
  rw [parseTokens_eq (by simp [h1, h2, hopnul]), parseTokens_eq (by simp [h1, h2, hopnul]), pure_inj,
    List.append_assoc, hright, hcut, hcut, List.append_cancel_left_eq]
  cases hm : modeAfter s1 with
  | neutral =>
      have hblanks : Reads .neutral (chSpace :: (op ++ chSpace :: t)) [] .neutral
          (op ++ chSpace :: t) := Reads.of_step _ (by rw [Mode.step, opened_of_isBlank hblank])
      rw [(reads_operatorText ho hop hhead).output, hblanks.output, hspaced.output]
      exact iff_of_true rfl rfl
  | operator o' =>
      have ho' : isOperator o' = true := by
        have hvalid := modeAfter_valid s1
        rwa [hm] at hvalid
      obtain ⟨x, hx⟩ := suffix_of_modeAfter_operator hm
      obtain ⟨-, h1, h2, h3⟩ := hlast o' (by rw [← hx]; simp)
      rcases isOperator_iff.1 ho' with h | h | h
      · exact absurd h h1
      · exact absurd h h2
      · exact absurd h h3
  | single w => rw [hm] at hending; simp [Mode.ending, Mode.singleOpen] at hending
  | double w => rw [hm] at hending; simp [Mode.ending, Mode.doubleOpen] at hending
  | doubleEsc w => rw [hm] at hending; simp [Mode.ending, Mode.doubleOpen] at hending
  | word w =>
      -- without them the operator goes on with the word
      refine iff_of_false ?_ (by simp [Mode.wordOpen])
      rw [output_word_operatorText ho hop, output_of_step (step_word_blank hblank w)]
      have hpos : 0 < op.length := by rcases hop with rfl | rfl <;> simp
      exact output_word_ne (by rcases hop with rfl | rfl <;> simp)
        (by rw [List.length_append]; omega) t _
  | wordEsc w =>
      obtain ⟨x, hx⟩ := suffix_of_modeAfter_wordEsc hm
      exact absurd rfl (hlast chBackslash (by rw [← hx]; simp)).1
  | escOp o' =>
      obtain ⟨ho', x, hx⟩ := suffix_of_modeAfter_escOp hm
      obtain ⟨-, h1, h2, h3⟩ := hlast o' (by rw [← hx]; simp)
      rcases isOperator_iff.1 ho' with h | h | h
      · exact absurd h h1
      · exact absurd h h2
      · exact absurd h h3
  | comment => rw [hm] at hending; simp [Mode.ending, Mode.inComment] at hending

/-- The line `"4">file`. -/
theorem parseLine_operator_quoted :
    parseTokens (ascii ['"', '4', '"'] ++ [chGt] ++ ascii ['f', 'i', 'l', 'e'])
        = parseTokens (ascii ['"', '4', '"'] ++ [chSpace] ++ [chGt] ++ [chSpace] ++
          ascii ['f', 'i', 'l', 'e']) ↔
      (modeAfter (ascii ['"', '4', '"'])).wordOpen = false := by
  have hnul : NulFree (ascii ['"', '4', '"']) := by decide
  obtain ⟨st, hst, hsingle, hdouble, hidx⟩ := scanLine_closed hnul (by decide) (by decide)
  refine parseLine_operator _ _ [chGt] st hnul (by decide) hst hsingle hdouble hidx ?_ (by decide)
    (by decide)
  intro c hc
  obtain rfl : chDquote = c := Option.some.inj hc
  decide

/-- In the line `100|a` the operator is part of a word. -/
theorem parseLine_operator_word :
    (∃ st, scanLine (ascii ['1', '0', '0']) = pure st ∧ st.singleQuote = false ∧
        st.doubleQuote = false ∧ ¬ st.idx < (ascii ['1', '0', '0']).length) ∧
      parseTokens (ascii ['1', '0', '0'] ++ [chPipe] ++ ascii ['a'])
        ≠ parseTokens (ascii ['1', '0', '0'] ++ [chSpace] ++ [chPipe] ++ [chSpace] ++
          ascii ['a']) := by
  constructor
  · exact scanLine_closed (by decide) (by decide) (by decide)
  · rw [parseTokens_eq (by decide), parseTokens_eq (by decide), Ne, pure_inj]
    decide

/-! ## Escaped characters -/

/-- `w` with a backslash before each of its characters. -/
def escapeAll (w : List CChar) : List CChar := w.flatMap fun c => [chBackslash, c]

theorem escapeAll_cons (c : CChar) (w : List CChar) :
    escapeAll (c :: w) = chBackslash :: c :: escapeAll w := rfl

theorem escapeAll_nulFree {w : List CChar} (hw : NulFree w) : NulFree (escapeAll w) := by
  induction w with
  | nil => exact nulFree_nil
  | cons c w ih =>
      obtain ⟨hc, hw⟩ := nulFree_cons.1 hw
      simp [escapeAll_cons, hc, ih hw]

/-- In a word, a backslash and a character that is no operator and no newline are that character. -/
theorem output_word_escape {c : CChar} (ho : isOperator c = false) (hn : c ≠ chNewline)
    (v t : List CChar) : scanner.output (.word v) (chBackslash :: c :: t)
      = scanner.output (.word (v ++ [c])) t := by
  rw [output_of_step (step_word_backslash v), List.nil_append]
  by_cases hbs : c = chBackslash
  · subst hbs
    exact output_of_step (step_wordEsc_backslash v) t
  · exact output_of_step (step_wordEsc_char ho hbs hn v) t

theorem output_word_escapeAll {w : List CChar} (hn : chNewline ∉ w)
    (ho : ∀ c ∈ w, isOperator c = false) (v : List CChar) :
    scanner.output (.word v) (escapeAll w) = [v ++ w] := by
  induction w generalizing v with
  | nil => simp [escapeAll, Mode.flush]
  | cons c w ih =>
      obtain ⟨hc, hcs⟩ := List.forall_mem_cons.1 ho
      obtain ⟨hnc, hns⟩ := not_or.1 (mt List.mem_cons.2 hn)
      rw [escapeAll_cons, output_word_escape hc (Ne.symm hnc), ih hns hcs]
      simp

/-- An escaped operator ends the word before it. -/
theorem output_word_escapeAll_ne {w : List CChar} (hn : chNewline ∉ w)
    (ho : ∃ c ∈ w, isOperator c = true) {v : List CChar} (hv : v ≠ []) :
    scanner.output (.word v) (escapeAll w) ≠ [v ++ w] := by
  induction w generalizing v with
  | nil => simp at ho
  | cons c w ih =>
      obtain ⟨hnc, hns⟩ := not_or.1 (mt List.mem_cons.2 hn)
      rw [escapeAll_cons]
      by_cases hc : isOperator c = true
      · rw [output_of_step (step_word_backslash v),
          output_of_step (step_wordEsc_operator hc hv)]
        intro h
        have hlen := congrArg List.length (List.cons.inj h).1
        simp at hlen
      · have hrest : ∃ d ∈ w, isOperator d = true := by
          obtain ⟨d, hd, hdo⟩ := ho
          rcases List.mem_cons.1 hd with rfl | hd
          · exact absurd hdo hc
          · exact ⟨d, hd, hdo⟩
        rw [output_word_escape (Bool.eq_false_iff.2 hc) (Ne.symm hnc)]
        have h := ih hns hrest (v := v ++ [c]) (by simp)
        rwa [List.append_assoc, List.singleton_append] at h

/-- At the start of a word, an escaped operator is not read: the character after it is. -/
theorem output_escapeAll_operator {c : CChar} (hc : isOperator c = true) (w : List CChar) :
    scanner.output .neutral (escapeAll (c :: w)) ≠ [c :: w] := by
  rw [escapeAll_cons, output_neutral_cons, show Mode.opened chBackslash = .wordEsc [] from rfl,
    output_of_step (step_wordEsc_nil_operator hc)]
  cases w with
  | nil => simp [escapeAll, Mode.flush]
  | cons d w =>
      have hne : chBackslash ≠ c := (ne_backslash_of_isOperator hc).symm
      rw [escapeAll_cons, output_of_step (show Mode.step (.escOp c) chBackslash
        = (.neutral, [[chBackslash]]) by rw [Mode.step, if_neg hne])]
      intro h
      exact hne (List.cons.inj (List.cons.inj h).1).1

/-- **When a backslash makes every character literal**: exactly when none of them is an operator
    character. -/
theorem parseLine_escapeAll (w : List CChar) (hne : w ≠ []) (hnul : NulFree w)
    (hn : chNewline ∉ w) :
    parseTokens (escapeAll w) = pure [w] ↔ ∀ c ∈ w, isOperator c = false := by
  rw [parseTokens_eq (escapeAll_nulFree hnul), pure_inj, tokens]
  obtain ⟨c, w, rfl⟩ := List.exists_cons_of_ne_nil hne
  by_cases hc : isOperator c = true
  · refine iff_of_false (output_escapeAll_operator hc w) ?_
    intro h
    exact absurd hc (Bool.eq_false_iff.1 (h c (List.mem_cons_self ..)))
  · obtain ⟨hnc, hns⟩ := not_or.1 (mt List.mem_cons.2 hn)
    -- the first backslash opens a word
    have hopen : scanner.output .neutral (escapeAll (c :: w))
        = scanner.output (.word [c]) (escapeAll w) := by
      rw [escapeAll_cons, output_neutral_cons, show Mode.opened chBackslash = .wordEsc [] from rfl]
      exact output_word_escape (Bool.eq_false_iff.2 hc) (Ne.symm hnc) [] (escapeAll w)
    rw [hopen, List.forall_mem_cons]
    by_cases hw : ∀ d ∈ w, isOperator d = false
    · exact iff_of_true (output_word_escapeAll hns hw [c]) ⟨Bool.eq_false_iff.2 hc, hw⟩
    · refine iff_of_false (output_word_escapeAll_ne hns ?_ (by simp)) (fun h => hw h.2)
      simpa using hw

/-- The characters of `a b\`. -/
theorem parseLine_escapeAll_blank :
    parseTokens (escapeAll (ascii ['a', ' ', 'b', '\\'])) = pure [ascii ['a', ' ', 'b', '\\']] ↔
      ∀ c ∈ ascii ['a', ' ', 'b', '\\'], isOperator c = false :=
  parseLine_escapeAll _ (by decide) (by decide) (by decide)

/-- An escaped `|` alone is an empty token. -/
theorem parseLine_escapeAll_pipe :
    parseTokens (escapeAll [chPipe]) = pure [[]] ∧
      parseTokens (escapeAll [chPipe]) ≠ pure [[chPipe]] := by
  rw [parseTokens_eq (by decide), pure_inj, Ne, pure_inj]
  decide

end SysProg.Shell
