import SysProg.Shell.ScannerRefine

set_option autoImplicit false

/-! # The tokens of a line

Consequences of the refinement of `parse_line` by the scanner: a line may be cut at any blank outside
quotes, and quoting protects every character. -/

namespace SysProg.Shell

/-! ## Modes that can be reached -/

/-- The operator characters a mode remembers are operator characters. -/
def Mode.Valid : Mode → Prop
  | .operator o => isOperator o = true
  | .escOp o => isOperator o = true
  | _ => True

theorem opened_valid (c : CChar) : (Mode.opened c).Valid := by
  unfold Mode.opened
  split_ifs with hb hh ho hs hd hbs
  · trivial
  · trivial
  · exact ho
  · trivial
  · trivial
  · trivial
  · trivial

theorem step_valid (m : Mode) (c : CChar) (hm : m.Valid) : (m.step c).1.Valid := by
  cases m with
  | neutral => exact opened_valid c
  | operator o =>
      simp only [Mode.step]
      split
      · trivial
      · exact opened_valid c
  | single w => simp only [Mode.step]; split <;> trivial
  | double w => simp only [Mode.step]; split_ifs <;> trivial
  | doubleEsc w => trivial
  | word w => simp only [Mode.step]; split_ifs <;> trivial
  | wordEsc w =>
      simp only [Mode.step]
      split_ifs with hbs ho hw hnl
      · trivial
      · exact ho
      · exact ho
      · trivial
      · trivial
  | escOp o => trivial
  | comment => trivial

theorem modeAfter_valid (s : List CChar) : (modeAfter s).Valid :=
  scanner.state_invariant (A := fun _ => True) (fun m c hm _ => step_valid m c hm) .neutral trivial
    s (fun _ _ => trivial)

theorem modeAfter_concat (s : List CChar) (c : CChar) :
    modeAfter (s ++ [c]) = ((modeAfter s).step c).1 := by
  rw [modeAfter, Transducer.state_append]
  rfl

/-- The only way to be just after a backslash in a word is to have read one. -/
theorem step_eq_wordEsc {m : Mode} {c : CChar} {w : List CChar} (h : (m.step c).1 = .wordEsc w) :
    c = chBackslash := by
  have hopened : Mode.opened c = .wordEsc w → c = chBackslash := by
    unfold Mode.opened
    split_ifs with hb hh ho hs hd hbs
    all_goals simp_all
  cases m with
  | neutral => exact hopened h
  | operator o =>
      simp only [Mode.step] at h
      split at h
      · exact absurd h (by simp)
      · exact hopened h
  | single w => simp only [Mode.step] at h; split at h <;> simp at h
  | double w => simp only [Mode.step] at h; split_ifs at h
  | doubleEsc w => simp [Mode.step] at h
  | word w =>
      simp only [Mode.step] at h
      split_ifs at h with hb hbs
      exact hbs
  | wordEsc w => simp only [Mode.step] at h; split_ifs at h
  | escOp o => simp [Mode.step] at h
  | comment => simp [Mode.step] at h

/-- The only way to be just after an escaped operator character is to have read one in a word just
    after a backslash. -/
theorem step_eq_escOp {m : Mode} {c o : CChar} (h : (m.step c).1 = .escOp o) :
    c = o ∧ isOperator o = true ∧ m = .wordEsc [] := by
  have hopened : Mode.opened c ≠ .escOp o := by
    unfold Mode.opened
    split_ifs <;> simp
  cases m with
  | neutral => exact absurd h hopened
  | operator o' =>
      simp only [Mode.step] at h
      split at h
      · exact absurd h (by simp)
      · exact absurd h hopened
  | single w => simp only [Mode.step] at h; split at h <;> simp at h
  | double w => simp only [Mode.step] at h; split_ifs at h
  | doubleEsc w => simp [Mode.step] at h
  | word w => simp only [Mode.step] at h; split_ifs at h
  | wordEsc w =>
      simp only [Mode.step] at h
      split_ifs at h with hbs ho hw
      simp only [Mode.escOp.injEq] at h
      exact ⟨h, h ▸ ho, by rw [hw]⟩
  | escOp o' => simp [Mode.step] at h
  | comment => simp [Mode.step] at h

theorem suffix_of_modeAfter_wordEsc {s w : List CChar} (h : modeAfter s = .wordEsc w) :
    [chBackslash] <:+ s := by
  rcases List.eq_nil_or_concat s with rfl | ⟨s', c, rfl⟩
  · simp [modeAfter] at h
  · rw [List.concat_eq_append, modeAfter_concat] at h
    rw [List.concat_eq_append, step_eq_wordEsc h]
    exact List.suffix_append s' _

theorem suffix_of_modeAfter_escOp {s : List CChar} {o : CChar} (h : modeAfter s = .escOp o) :
    isOperator o = true ∧ [chBackslash, o] <:+ s := by
  rcases List.eq_nil_or_concat s with rfl | ⟨s', c, rfl⟩
  · simp [modeAfter] at h
  · rw [List.concat_eq_append, modeAfter_concat] at h
    obtain ⟨rfl, ho, hm⟩ := step_eq_escOp h
    refine ⟨ho, ?_⟩
    obtain ⟨s'', rfl⟩ := suffix_of_modeAfter_wordEsc hm
    exact ⟨s'', by simp⟩

/-! ## Cutting a line at a blank -/

/-- A blank outside quotes and comments, not escaped, completes what is pending. -/
theorem reads_blank {m : Mode} {c : CChar} (ys : List CChar) (hb : isBlank c = true)
    (hm : m.Valid) (hend : m.ending = (false, false, false)) (hesc : ∀ w, m ≠ .wordEsc w)
    (hop : ∀ o, m ≠ .escOp o) : Reads m (c :: ys) m.flush .neutral ys := by
  cases m with
  | neutral => exact Reads.of_step ys (by rw [Mode.step, opened_of_isBlank hb]; rfl)
  | operator o =>
      have hne : c ≠ o := by
        rintro rfl
        rcases isOperator_iff.1 hm with rfl | rfl | rfl <;> exact absurd hb (by decide)
      exact Reads.of_step ys (by rw [Mode.step, if_neg hne, opened_of_isBlank hb]; rfl)
  | single w => simp [Mode.ending, Mode.singleOpen] at hend
  | double w => simp [Mode.ending, Mode.doubleOpen] at hend
  | doubleEsc w => simp [Mode.ending, Mode.doubleOpen] at hend
  | word w => exact Reads.of_step ys (by simp [Mode.step, hb, Mode.flush])
  | wordEsc w => exact absurd rfl (hesc w)
  | escOp o => exact absurd rfl (hop o)
  | comment => simp [Mode.ending, Mode.inComment] at hend

/-- **Tokenization is compositional at top-level blanks.** -/
theorem parseLine_append_blank (s1 s2 : List CChar) (c : CChar) (st : ParseState)
    (h1 : NulFree s1) (h2 : NulFree s2) (hc : c = chSpace ∨ c = chTab)
    (hscan : scanLine s1 = pure st) (hsq : st.singleQuote = false) (hdq : st.doubleQuote = false)
    (hend : ¬ st.idx < s1.length) (hbs : ¬ [chBackslash] <:+ s1)
    (hop : ∀ o, o = chPipe ∨ o = chGt ∨ o = chAmp → ¬ [chBackslash, o] <:+ s1) :
    ∃ t1 t2, parseTokens s1 = pure t1 ∧ parseTokens s2 = pure t2 ∧
      parseTokens (s1 ++ c :: s2) = pure (t1 ++ t2) := by
  have hb : isBlank c = true := by rcases hc with rfl | rfl <;> decide
  have hc0 : c ≠ chNul := by rcases hc with rfl | rfl <;> decide
  have hending := scanLine_ending h1 hscan
  rw [hsq, hdq, decide_eq_false hend] at hending
  have hesc : ∀ w, modeAfter s1 ≠ .wordEsc w := fun w h => hbs (suffix_of_modeAfter_wordEsc h)
  have hescOp : ∀ o, modeAfter s1 ≠ .escOp o := fun o h =>
    have ⟨ho, hsuf⟩ := suffix_of_modeAfter_escOp h
    hop o (isOperator_iff.1 ho) hsuf
  have hreads := reads_blank s2 hb (modeAfter_valid s1) hending hesc hescOp
  refine ⟨tokens s1, tokens s2, parseTokens_eq h1, parseTokens_eq h2, ?_⟩
  have hcut : tokens (s1 ++ c :: s2) = tokens s1 ++ tokens s2 :=
    scanner.output_append_of_flush .neutral .neutral s1 (c :: s2) s2 hreads.output
  rw [parseTokens_eq (by simp [h1, h2, hc0]), hcut]

/-- The line `a#b | '#'`, cut before its quote. -/
theorem parseLine_append_blank_hash :
    ∃ t1 t2, parseTokens (ascii ['a', '#', 'b', ' ', '|']) = pure t1 ∧
      parseTokens (ascii ['\'', '#', '\'']) = pure t2 ∧
      parseTokens (ascii ['a', '#', 'b', ' ', '|'] ++ chSpace :: ascii ['\'', '#', '\''])
        = pure (t1 ++ t2) := by
  have hnul : NulFree (ascii ['a', '#', 'b', ' ', '|']) := by decide
  obtain ⟨st, hst, hsingle, hdouble, hidx⟩ := scanLine_closed hnul (by decide) (by decide)
  exact parseLine_append_blank _ _ chSpace st hnul (by decide) (Or.inl rfl) hst hsingle hdouble hidx
    (by decide) (by rintro o (rfl | rfl | rfl) <;> decide)

/-! ## Quoting -/

/-- A word as it is written between double quotes: backslashes and double quotes escaped. -/
def escapeDouble : List CChar → List CChar
  | [] => []
  | c :: w =>
      if c = chBackslash ∨ c = chDquote then chBackslash :: c :: escapeDouble w
      else c :: escapeDouble w

/-- The ways of quoting a word. -/
inductive Quoting : List CChar → List CChar → Prop where
  | single {w : List CChar} (h : chSquote ∉ w) : Quoting w (chSquote :: w ++ [chSquote])
  | double (w : List CChar) : Quoting w (chDquote :: escapeDouble w ++ [chDquote])

/-- Quoted words, joined by one or more blanks. -/
inductive QuotedLine : List (List CChar) → List CChar → Prop where
  | nil : QuotedLine [] []
  | one {w t : List CChar} (h : Quoting w t) : QuotedLine [w] t
  | cons {w t b t' : List CChar} {ws : List (List CChar)} (h : Quoting w t)
      (hb : ∀ c ∈ b, c = chSpace ∨ c = chTab) (hne : b ≠ []) (hws : ws ≠ [])
      (h' : QuotedLine ws t') : QuotedLine (w :: ws) (t ++ b ++ t')

theorem reads_single (v w ys : List CChar) (hw : chSquote ∉ w) :
    Reads (.single v) (w ++ chSquote :: ys) [v ++ w] .neutral ys := by
  induction w generalizing v with
  | nil => exact Reads.of_step ys (by simp [Mode.step])
  | cons c w ih =>
      obtain ⟨hc, hw⟩ := not_or.1 (mt List.mem_cons.2 hw)
      have hstep : Reads (.single v) (c :: (w ++ chSquote :: ys)) [] (.single (v ++ [c]))
          (w ++ chSquote :: ys) :=
        Reads.of_step _ (by rw [Mode.step, if_neg (Ne.symm hc)])
      simpa using hstep.trans (ih (v ++ [c]) hw)

theorem reads_double (v w ys : List CChar) :
    Reads (.double v) (escapeDouble w ++ chDquote :: ys) [v ++ w] .neutral ys := by
  induction w generalizing v with
  | nil => exact Reads.of_step ys (by simp [Mode.step])
  | cons c w ih =>
      have hchar : Reads (.double v) (escapeDouble (c :: w) ++ chDquote :: ys) []
          (.double (v ++ [c])) (escapeDouble w ++ chDquote :: ys) := by
        by_cases hesc : c = chBackslash ∨ c = chDquote
        · rw [escapeDouble, if_pos hesc]
          have hopen : Reads (.double v) (chBackslash :: c :: (escapeDouble w ++ chDquote :: ys)) []
              (.doubleEsc v) (c :: (escapeDouble w ++ chDquote :: ys)) :=
            Reads.of_step _ (by simp [Mode.step])
          have hun : unescape c = [c] := by rcases hesc with rfl | rfl <;> rfl
          exact hopen.trans (Reads.of_step _ (by rw [Mode.step, hun]))
        · rw [escapeDouble, if_neg hesc]
          obtain ⟨hbs, hd⟩ := not_or.1 hesc
          exact Reads.of_step _ (by rw [Mode.step, if_neg hd, if_neg hbs])
      simpa using hchar.trans (ih (v ++ [c]))

/-- A quoted word is read back as one token, and leaves nothing pending. -/
theorem reads_quoting {w t : List CChar} (h : Quoting w t) (ys : List CChar) :
    Reads .neutral (t ++ ys) [w] .neutral ys := by
  cases h with
  | single hw =>
      have hopen : Reads .neutral (chSquote :: (w ++ chSquote :: ys)) [] (.single [])
          (w ++ chSquote :: ys) := Reads.of_step _ rfl
      simpa using hopen.trans (reads_single [] w ys hw)
  | double =>
      have hopen : Reads .neutral (chDquote :: (escapeDouble w ++ chDquote :: ys)) [] (.double [])
          (escapeDouble w ++ chDquote :: ys) := Reads.of_step _ rfl
      simpa using hopen.trans (reads_double [] w ys)

theorem reads_blanks (b ys : List CChar) (hb : ∀ c ∈ b, c = chSpace ∨ c = chTab) :
    Reads .neutral (b ++ ys) [] .neutral ys := by
  induction b with
  | nil => exact Reads.refl _ _
  | cons c b ih =>
      have hc : isBlank c = true := by
        rcases hb c (List.mem_cons_self ..) with rfl | rfl <;> decide
      exact (Reads.of_step _ (by rw [Mode.step, opened_of_isBlank hc])).trans
        (ih (fun d hd => hb d (List.mem_cons_of_mem _ hd)))

theorem tokens_quotedLine {ws : List (List CChar)} {t : List CChar} (h : QuotedLine ws t) :
    tokens t = ws := by
  induction h with
  | nil => rfl
  | one h =>
      have hreads := reads_quoting h []
      rw [List.append_nil] at hreads
      exact hreads.output
  | @cons w t b t' ws h hb _ _ _ ih =>
      have hreads := (reads_quoting h (b ++ t')).trans (reads_blanks b t' hb)
      rw [← List.append_assoc] at hreads
      rw [tokens, hreads.output]
      show w :: tokens t' = w :: ws
      rw [ih]

theorem escapeDouble_nulFree {w : List CChar} (hw : NulFree w) : NulFree (escapeDouble w) := by
  induction w with
  | nil => exact nulFree_nil
  | cons c w ih =>
      obtain ⟨hc, hw⟩ := nulFree_cons.1 hw
      rw [escapeDouble]
      split
      · simp [hc, ih hw]
      · simp [hc, ih hw]

theorem Quoting.nulFree {w t : List CChar} (h : Quoting w t) (hw : NulFree w) : NulFree t := by
  cases h with
  | single _ => simp [hw]
  | double => simp [escapeDouble_nulFree hw]

theorem QuotedLine.nulFree {ws : List (List CChar)} {t : List CChar} (h : QuotedLine ws t)
    (hws : ∀ w ∈ ws, NulFree w) : NulFree t := by
  induction h with
  | nil => exact nulFree_nil
  | one h => exact h.nulFree (hws _ (List.mem_cons_self ..))
  | @cons w t b t' ws h hb _ _ _ ih =>
      have hbn : NulFree b := fun c hc => by rcases hb c hc with rfl | rfl <;> decide
      simp only [nulFree_append]
      exact ⟨⟨h.nulFree (hws _ (List.mem_cons_self ..)), hbn⟩,
        ih (fun v hv => hws v (List.mem_cons_of_mem _ hv))⟩

/-- **Quoting round trip.** -/
theorem parseLine_quotedLine (ws : List (List CChar)) (t : List CChar)
    (hws : ∀ w ∈ ws, NulFree w) (h : QuotedLine ws t) : parseTokens t = pure ws := by
  rw [parseTokens_eq (h.nulFree hws), tokens_quotedLine h]

/-- `'a "'`, an empty word and `"'\\\""`, joined by two blanks and a tab. -/
theorem parseLine_quotedLine_mixed :
    parseTokens (ascii ['\'', 'a', ' ', '"', '\''] ++ [chSpace, chSpace] ++
        (ascii ['"', '"'] ++ [chTab] ++ ascii ['"', '\'', '\\', '\\', '\\', '"', '"']))
      = pure [ascii ['a', ' ', '"'], [], ascii ['\'', '\\', '"']] :=
  parseLine_quotedLine _ _ (by decide)
    (.cons (.single (by decide)) (by decide) (by decide) (by decide)
      (.cons (.double []) (by decide) (by decide) (by decide) (.one (.double _))))

end SysProg.Shell
