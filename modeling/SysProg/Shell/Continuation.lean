import SysProg.Shell.Word
import SysProg.Shell.ReadLine

set_option autoImplicit false

/-! # Line continuation

`read_line` drops the newline of a continuation and leaves its backslash, so `parse_line` sees
`s`, a backslash and `t` where the line without the continuation is `s` and `t`. For texts without
quotes, comments and newlines this decides exactly when the two lines have the same tokens: when `t`
starts so that the backslash before it changes nothing (`joins`). -/

namespace SysProg.Shell

/-! ## Texts without quotes, comments and newlines -/

/-- The characters of the texts around a continuation. -/
def PlainChar (c : CChar) : Prop :=
  c ≠ chDquote ∧ c ≠ chSquote ∧ c ≠ chHash ∧ c ≠ chNewline ∧ c ≠ chNul ∧ c ≠ chEot ∧ c ≠ 0xFF

instance (c : CChar) : Decidable (PlainChar c) := inferInstanceAs (Decidable (_ ∧ _))

def PlainText (s : List CChar) : Prop := ∀ c ∈ s, PlainChar c

instance (s : List CChar) : Decidable (PlainText s) := inferInstanceAs (Decidable (∀ c ∈ s, _))

theorem plainText_cons {c : CChar} {s : List CChar} :
    PlainText (c :: s) ↔ PlainChar c ∧ PlainText s := by simp [PlainText]

theorem PlainText.nulFree {s : List CChar} (hs : PlainText s) : NulFree s :=
  fun c hc => (hs c hc).2.2.2.2.1

theorem PlainText.inert {s : List CChar} (hs : PlainText s) : ∀ c ∈ s, Inert c := by
  intro c hc
  obtain ⟨hd, -, -, hn, -, heot, hff⟩ := hs c hc
  refine ⟨hd, hn, ?_⟩
  rw [Bool.eq_false_iff]
  intro heof
  rcases (isEof_iff c).1 heof with h | h
  · exact hff h
  · exact heot h

/-- A plain character is a blank, an operator, a backslash or an ordinary character. -/
inductive PlainClass (c : CChar) : Prop where
  | blank (h : isBlank c = true)
  | operator (h : isOperator c = true)
  | backslash (h : c = chBackslash)
  | ordinary (hb : isBlank c = false) (ho : isOperator c = false) (hbs : c ≠ chBackslash)

theorem plainClass (c : CChar) : PlainClass c := by
  cases hb : isBlank c with
  | true => exact .blank hb
  | false =>
    cases ho : isOperator c with
    | true => exact .operator ho
    | false =>
      by_cases hbs : c = chBackslash
      · exact .backslash hbs
      · exact .ordinary hb ho hbs

/-! ## How the scanner reads them -/

theorem opened_ordinary {c : CChar} (hc : PlainChar c) (hb : isBlank c = false)
    (ho : isOperator c = false) (hbs : c ≠ chBackslash) : Mode.opened c = .word [c] := by
  obtain ⟨hd, hs, hh, -⟩ := hc
  simp only [Mode.opened, hb, ho, if_neg hh, if_neg hs, if_neg hd, if_neg hbs, Bool.false_eq_true,
    if_false]

/-- In a word, a plain character that is no blank and no backslash is taken as it is. -/
theorem step_word_push {c : CChar} (hc : PlainChar c) (hb : isBlank c = false)
    (hbs : c ≠ chBackslash) (w : List CChar) : Mode.step (.word w) c = (.word (w ++ [c]), []) := by
  exact step_word_char hb hbs hc.1 hc.2.1 w

/-- After a backslash in a word, a plain character that is no operator is taken as it is. -/
theorem step_wordEsc_push {c : CChar} (hc : PlainChar c) (ho : isOperator c = false)
    (hbs : c ≠ chBackslash) (w : List CChar) :
    Mode.step (.wordEsc w) c = (.word (w ++ [c]), []) := by
  exact step_wordEsc_char ho hbs hc.2.2.2.1 w

/-- The modes plain texts lead to. -/
inductive PlainMode : Mode → Prop where
  | neutral : PlainMode .neutral
  | operator {o : CChar} (ho : isOperator o = true) : PlainMode (.operator o)
  | word {w : List CChar} (hw : w ≠ []) : PlainMode (.word w)
  | wordEsc (w : List CChar) : PlainMode (.wordEsc w)
  | escOp {o : CChar} (ho : isOperator o = true) : PlainMode (.escOp o)

theorem plainMode_opened {c : CChar} (hc : PlainChar c) : PlainMode (.opened c) := by
  cases plainClass c with
  | blank h => rw [opened_of_isBlank h]; exact .neutral
  | operator h => rw [opened_of_isOperator h]; exact .operator h
  | backslash h => subst h; exact .wordEsc []
  | ordinary hb ho hbs => rw [opened_ordinary hc hb ho hbs]; exact .word (by simp)

theorem plainMode_step {m : Mode} {c : CChar} (hm : PlainMode m) (hc : PlainChar c) :
    PlainMode (m.step c).1 := by
  cases hm with
  | neutral => exact plainMode_opened hc
  | operator ho =>
      simp only [Mode.step]
      split
      · exact .neutral
      · exact plainMode_opened hc
  | word hw =>
      cases plainClass c with
      | blank h => rw [step_word_blank h]; exact .neutral
      | operator h =>
          rw [step_word_push hc (isBlank_of_isOperator h) (ne_backslash_of_isOperator h)]
          exact .word (by simp)
      | backslash h => subst h; rw [step_word_backslash]; exact .wordEsc _
      | ordinary hb ho hbs => rw [step_word_push hc hb hbs]; exact .word (by simp)
  | wordEsc w =>
      cases plainClass c with
      | blank h =>
          rw [step_wordEsc_push hc (isOperator_of_isBlank h) (ne_backslash_of_isBlank h)]
          exact .word (by simp)
      | operator h =>
          by_cases hw : w = []
          · subst hw; rw [step_wordEsc_nil_operator h]; exact .escOp h
          · rw [step_wordEsc_operator h hw]; exact .operator h
      | backslash h => subst h; rw [step_wordEsc_backslash]; exact .word (by simp)
      | ordinary hb ho hbs => rw [step_wordEsc_push hc ho hbs]; exact .word (by simp)
  | escOp ho => exact .neutral

theorem plainMode_modeAfter {s : List CChar} (hs : PlainText s) : PlainMode (modeAfter s) :=
  scanner.state_invariant (P := PlainMode) (A := PlainChar) (fun _ _ => plainMode_step) .neutral
    .neutral s hs

/-! ## Outputs from after an operator -/

/-- From just after an operator character, the first token starts with it. -/
theorem output_operator (o : CChar) (t : List CChar) :
    ∃ u r, scanner.output (.operator o) t = (o :: u) :: r := by
  cases t with
  | nil => exact ⟨[], [], rfl⟩
  | cons c t =>
      by_cases hc : c = o
      · exact ⟨[o], scanner.output .neutral t, by simp [Mode.step, hc]⟩
      · exact ⟨[], scanner.output (.opened c) t, by simp [Mode.step, hc]⟩

/-! ## When a backslash changes nothing -/

/-- `t` continues a word as if the backslash before it were not there: it starts with an even number
    of backslashes and then ends or goes on with an ordinary character. -/
def joinsWord : List CChar → Bool
  | [] => true
  | [c] => !isBlank c && !isOperator c && c != chBackslash
  | c :: d :: t =>
      if c = chBackslash then d == chBackslash && joinsWord t
      else !isBlank c && !isOperator c

/-- `t` starts between tokens as if the backslash before it were not there: with a doubled operator,
    with an ordinary character, or with an even number of backslashes as in a word. -/
def joinsStart : List CChar → Bool
  | [] => false
  | c :: t =>
      if c = chBackslash then
        match t with
        | [] => false
        | d :: t => d == chBackslash && joinsWord t
      else if isOperator c then t.head? == some c
      else !isBlank c

/-- `t` continues a line in mode `m` as if the backslash before it were not there. -/
def joins : Mode → List CChar → Bool
  | .word _, t => joinsWord t
  | .operator o, t => t.head? != some o && joinsStart t
  | .escOp _, c :: t => c == chBackslash && joinsStart t
  | .escOp _, [] => false
  | _, t => joinsStart t

theorem joinsWord_cons {c : CChar} (hbs : c ≠ chBackslash) (t : List CChar) :
    joinsWord (c :: t) = (!isBlank c && !isOperator c) := by
  cases t with
  | nil => simp only [joinsWord, bne_iff_ne.2 hbs, Bool.and_true]
  | cons d t => simp only [joinsWord, if_neg hbs]

theorem joinsStart_cons {c : CChar} (hbs : c ≠ chBackslash) (t : List CChar) :
    joinsStart (c :: t) = if isOperator c then t.head? == some c else !isBlank c := by
  rw [joinsStart.eq_def]
  exact if_neg hbs

/-- In a word, the backslash of a continuation changes nothing exactly when `joinsWord` holds. -/
theorem output_word_joins : ∀ (t : List CChar), PlainText t → ∀ w, w ≠ [] →
    (scanner.output (.wordEsc w) t = scanner.output (.word w) t ↔ joinsWord t = true)
  | [], _, w, _ => by simp [Mode.flush, joinsWord]
  | c :: t, hct, w, hw => by
      obtain ⟨hc, ht⟩ := plainText_cons.1 hct
      clear hct
      obtain ⟨⟨u, r, hword⟩, -⟩ := output_word t
      cases plainClass c with
      | blank h =>
          have ho := isOperator_of_isBlank h
          have hbs := ne_backslash_of_isBlank h
          rw [joinsWord_cons hbs, h, output_of_step (step_word_blank h w),
            output_of_step (step_wordEsc_push hc ho hbs w), List.nil_append, hword _ (by simp)]
          simp
      | operator h =>
          have hb := isBlank_of_isOperator h
          have hbs := ne_backslash_of_isOperator h
          rw [joinsWord_cons hbs, h, output_of_step (step_word_push hc hb hbs w),
            output_of_step (step_wordEsc_operator h hw), List.nil_append, hword _ (by simp)]
          simp
      | ordinary hb ho hbs =>
          rw [joinsWord_cons hbs, hb, ho, output_of_step (step_word_push hc hb hbs w),
            output_of_step (step_wordEsc_push hc ho hbs w)]
          simp
      | backslash h =>
          subst h
          rw [output_of_step (step_word_backslash w), output_of_step (step_wordEsc_backslash w),
            List.nil_append, List.nil_append]
          cases t with
          | nil => simp [Mode.flush, joinsWord]
          | cons d t =>
              obtain ⟨hd, ht'⟩ := plainText_cons.1 ht
              by_cases hbs : d = chBackslash
              · subst hbs
                have ih := output_word_joins t ht' (w ++ [chBackslash]) (by simp)
                rw [output_of_step (step_word_backslash _), output_of_step
                  (step_wordEsc_backslash w), List.nil_append, List.nil_append, ih]
                simp [joinsWord]
              · have hbeq : (d == chBackslash) = false := by simpa using hbs
                rw [joinsWord, if_pos rfl, hbeq, Bool.false_and, hword _ (by simp)]
                cases ho : isOperator d with
                | true =>
                    rw [output_of_step (step_wordEsc_operator ho hw)]
                    simp
                | false =>
                    obtain ⟨⟨u', r', hword'⟩, -⟩ := output_word t
                    rw [output_of_step (step_wordEsc_push hd ho hbs w), List.nil_append,
                      hword' _ (by simp)]
                    have hne := cons_append_ne (w := w) (u := u) (v := u') (Ne.symm hbs) r r'
                    simpa using hne

/-- A token with one more character in front is another token. -/
theorem cons_cons_ne (b : CChar) (v : List CChar) (r r' : List (List CChar)) :
    (b :: v) :: r ≠ v :: r' := by
  intro heq
  have hlen := congrArg List.length (List.cons.inj heq).1
  simp at hlen

/-- A blank that starts a word between tokens is never as good as none. -/
theorem output_word_blank_ne {b : CChar} (hb : isBlank b = true) {t : List CChar}
    (ht : PlainText t) : scanner.output (.word [b]) t ≠ scanner.output .neutral t := by
  have hpush : ∀ (c : CChar) (t : List CChar),
      scanner.output (.word [b, c]) t ≠ scanner.output (.word [c]) t := by
    intro c t
    obtain ⟨⟨u, r, hword⟩, -⟩ := output_word t
    rw [hword [b, c] (by simp), hword [c] (by simp)]
    exact cons_cons_ne b (c :: u) r r
  cases t with
  | nil => simp [Mode.flush]
  | cons c t =>
      obtain ⟨hc, htail⟩ := plainText_cons.1 ht
      rw [output_neutral_cons]
      cases plainClass c with
      | blank h =>
          rw [output_of_step (step_word_blank h _), opened_of_isBlank h]
          exact List.cons_ne_self _ _
      | operator h =>
          obtain ⟨⟨u, r, hword⟩, -⟩ := output_word t
          obtain ⟨u', r', hop⟩ := output_operator c t
          have hne : b ≠ c := by
            rintro rfl
            rw [isBlank_of_isOperator h] at hb
            exact absurd hb (by decide)
          rw [output_of_step (step_word_push hc (isBlank_of_isOperator h)
            (ne_backslash_of_isOperator h) _), opened_of_isOperator h, hop, List.nil_append,
            hword _ (by simp)]
          exact cons_append_ne (w := []) hne r r'
      | ordinary hblank ho hbs =>
          rw [output_of_step (step_word_push hc hblank hbs _), opened_ordinary hc hblank ho hbs]
          exact hpush c t
      | backslash h =>
          subst h
          rw [output_of_step (step_word_backslash _)]
          show scanner.output (.wordEsc [b]) t ≠ scanner.output (.wordEsc []) t
          cases t with
          | nil => simp [Mode.flush]
          | cons d t =>
              obtain ⟨hd, -⟩ := plainText_cons.1 htail
              by_cases hbs : d = chBackslash
              · subst hbs
                rw [output_of_step (step_wordEsc_backslash _), output_of_step
                  (step_wordEsc_backslash _)]
                exact hpush chBackslash t
              cases ho : isOperator d with
              | false =>
                  rw [output_of_step (step_wordEsc_push hd ho hbs _), output_of_step
                    (step_wordEsc_push hd ho hbs _)]
                  exact hpush d t
              | true =>
                  rw [output_of_step (step_wordEsc_operator ho (List.cons_ne_nil b [])),
                    output_of_step (step_wordEsc_nil_operator ho)]
                  cases t with
                  | nil => simp [Mode.flush]
                  | cons e t =>
                      by_cases he : e = d
                      · subst he
                        simp [Mode.step]
                      · simp only [Transducer.output_cons, scanner_step, Mode.step, if_neg he,
                          List.cons_append, List.nil_append]
                        intro heq
                        obtain ⟨hbe, hrest⟩ := List.cons.inj heq
                        obtain rfl : b = e := (List.cons.inj hbe).1
                        rw [opened_of_isBlank hb] at hrest
                        exact List.cons_ne_self _ _ hrest

/-- An operator character escaped between tokens is as good as one that is not when it is doubled. -/
theorem output_escOp_eq (o : CChar) (t : List CChar) :
    scanner.output (.escOp o) t = scanner.output (.operator o) t ↔ t.head? = some o := by
  cases t with
  | nil => simp [Mode.flush]
  | cons c t =>
      by_cases hc : c = o
      · subst hc; simp [Mode.step]
      · simp [Mode.step, hc]

/-- The token of an escaped operator character does not start like a longer one. -/
theorem output_escOp_ne {o b : CChar} (ho : b ≠ o) (u t : List CChar) (r : List (List CChar)) :
    (b :: o :: u) :: r ≠ scanner.output (.escOp o) t := by
  cases t with
  | nil => simp [Mode.flush]
  | cons c t =>
      by_cases hc : c = o
      · subst hc; simp [Mode.step, ho]
      · simp [Mode.step, hc]

/-- Between tokens, the backslash of a continuation changes nothing exactly when `joinsStart`
    holds. -/
theorem output_neutral_joins {t : List CChar} (ht : PlainText t) :
    scanner.output (.wordEsc []) t = scanner.output .neutral t ↔ joinsStart t = true := by
  cases t with
  | nil => simp [Mode.flush, joinsStart]
  | cons c t =>
      obtain ⟨hc, htail⟩ := plainText_cons.1 ht
      rw [output_neutral_cons]
      cases plainClass c with
      | blank h =>
          have ho := isOperator_of_isBlank h
          have hbs := ne_backslash_of_isBlank h
          have hne := output_word_blank_ne h htail
          rw [output_of_step (step_wordEsc_push hc ho hbs _), opened_of_isBlank h,
            joinsStart_cons hbs, ho, h]
          simpa using hne
      | operator h =>
          rw [output_of_step (step_wordEsc_nil_operator h), opened_of_isOperator h,
            joinsStart_cons (ne_backslash_of_isOperator h), if_pos h, List.nil_append,
            output_escOp_eq, beq_iff_eq]
      | ordinary hb ho hbs =>
          rw [output_of_step (step_wordEsc_push hc ho hbs _), opened_ordinary hc hb ho hbs,
            joinsStart_cons hbs, ho, hb]
          simp
      | backslash h =>
          subst h
          rw [output_of_step (step_wordEsc_backslash _)]
          show scanner.output (.word [chBackslash]) t = scanner.output (.wordEsc []) t ↔ _
          cases t with
          | nil => simp [Mode.flush, joinsStart]
          | cons d t =>
              obtain ⟨hd, ht'⟩ := plainText_cons.1 htail
              by_cases hbs : d = chBackslash
              · subst hbs
                have ih := output_word_joins t ht' [chBackslash] (by simp)
                rw [output_of_step (step_word_backslash _), output_of_step
                  (step_wordEsc_backslash _)]
                simpa [joinsStart] using ih
              have hfalse : joinsStart (chBackslash :: d :: t) = false := by
                simp [joinsStart, hbs]
              rw [hfalse]
              simp only [Bool.false_eq_true, iff_false]
              cases ho : isOperator d with
              | false =>
                  obtain ⟨⟨u, r, hword⟩, -⟩ := output_word (d :: t)
                  obtain ⟨⟨u', r', hword'⟩, -⟩ := output_word t
                  rw [output_of_step (step_wordEsc_push hd ho hbs _), hword _ (by simp),
                    List.nil_append, List.nil_append, hword' _ (by simp)]
                  exact cons_append_ne (w := []) (Ne.symm hbs) r r'
              | true =>
                  obtain ⟨⟨u, r, hword⟩, -⟩ := output_word t
                  rw [output_of_step (step_word_push hd (isBlank_of_isOperator ho) hbs _),
                    output_of_step (step_wordEsc_nil_operator ho), List.nil_append,
                    hword _ (by simp)]
                  exact output_escOp_ne (Ne.symm hbs) u t r

/-- The backslash of a continuation changes nothing exactly when `joins` holds. -/
theorem output_joins {m : Mode} (hm : PlainMode m) (hesc : ∀ w, m ≠ .wordEsc w) {t : List CChar}
    (ht : PlainText t) :
    scanner.output m (chBackslash :: t) = scanner.output m t ↔ joins m t = true := by
  cases hm with
  | neutral => exact output_neutral_joins ht
  | word hw =>
      rw [output_of_step (step_word_backslash _)]
      exact output_word_joins t ht _ hw
  | wordEsc w => exact absurd rfl (hesc w)
  | @operator o ho =>
      have hopen : Mode.step (.operator o) chBackslash = (.wordEsc [], [[o]]) := by
        simp only [Mode.step, if_neg (Ne.symm (ne_backslash_of_isOperator ho))]
        rfl
      rw [output_of_step hopen, joins]
      by_cases hhead : t.head? = some o
      · obtain ⟨t, rfl⟩ := List.head?_eq_some_iff.1 hhead
        simp [Mode.step]
      · rw [(reads_operator hhead).output, List.append_cancel_left_eq, output_neutral_joins ht]
        simp [hhead]
  | @escOp o ho =>
      have hopen : Mode.step (.escOp o) chBackslash = (.neutral, [[chBackslash]]) := by
        simp only [Mode.step, if_neg (Ne.symm (ne_backslash_of_isOperator ho))]
      rw [output_of_step hopen]
      cases t with
      | nil => simp [Mode.flush, joins]
      | cons c t =>
          by_cases hbs : c = chBackslash
          · subst hbs
            rw [output_of_step hopen, List.append_cancel_left_eq, joins, beq_self_eq_true,
              Bool.true_and, ← output_neutral_joins (plainText_cons.1 ht).2]
            rfl
          · have hbeq : (c == chBackslash) = false := by simpa using hbs
            have hstep : Mode.step (.escOp o) c = (.neutral, [if c = o then [o, o] else [c]]) := rfl
            rw [joins, hbeq, output_of_step hstep]
            by_cases hco : c = o
            · simp [hco]
            · simp [hco, Ne.symm hbs]

/-! ## What `read_line` hands over -/

theorem lineText_plain {s : List CChar} (hs : PlainText s) (prev : CChar) :
    (lineText false prev (s ++ [chNewline])).1 = s := by
  rw [lineText_inert false prev s [chNewline] hs.inert]
  have hend : ∀ prev, (lineText false prev [chNewline]).1 = [] := by
    intro prev
    by_cases hbs : prev = chBackslash
    · subst hbs; rfl
    · simp [lineText, readAct, hbs, isEof_iff]
  rw [hend, List.append_nil]

/-- `read_line` drops the newline of a continuation and keeps its backslash. -/
theorem lineText_continuation {s t : List CChar} (hs : PlainText s) (ht : PlainText t) :
    (lineText false chS (s ++ chBackslash :: chNewline :: (t ++ [chNewline]))).1
      = s ++ chBackslash :: t := by
  have hbs : PlainText [chBackslash] := by decide
  have hplain : ∀ c ∈ s ++ [chBackslash], Inert c := by
    intro c hc
    rcases List.mem_append.1 hc with h | h
    · exact hs.inert c h
    · exact hbs.inert c h
  have hline := lineText_inert false chS (s ++ [chBackslash]) (chNewline :: (t ++ [chNewline]))
    hplain
  simp only [List.append_assoc, List.singleton_append, List.getLastD_concat] at hline
  rw [hline]
  have hskip : lineText false chBackslash (chNewline :: (t ++ [chNewline]))
      = lineText false chS (t ++ [chNewline]) := rfl
  simp [hskip, lineText_plain ht]

/-- **When a continuation is transparent**: exactly when what follows it joins what precedes it, on a
    line that fits. -/
theorem readTokens_continuation (s t : List CChar) (hs : PlainText s) (ht : PlainText t)
    (hbs : ¬ [chBackslash] <:+ s) :
    (∃ ts, readTokens (s ++ chBackslash :: chNewline :: (t ++ [chNewline])) = pure ts ∧
      readTokens (s ++ (t ++ [chNewline])) = pure ts) ↔
    joins (modeAfter s) t = true ∧ (s ++ chBackslash :: t).length < lineLimit := by
  have hcont := lineText_continuation hs ht
  have hst : PlainText (s ++ t) := fun c hc => (List.mem_append.1 hc).elim (hs c) (ht c)
  have hjoint := lineText_plain hst chS
  rw [List.append_assoc] at hjoint
  have hnul : NulFree (s ++ chBackslash :: t) := by
    simp [hs.nulFree, ht.nulFree]
  by_cases hfit : (s ++ chBackslash :: t).length < lineLimit
  · have hfits : LineFits (s ++ chBackslash :: chNewline :: (t ++ [chNewline])) := by
      rwa [LineFits, hcont]
    have hfits' : LineFits (s ++ (t ++ [chNewline])) := by
      rw [LineFits, hjoint]
      simp only [List.length_append, List.length_cons] at hfit ⊢
      omega
    rw [readTokens_eq hfits (by rw [hcont]; exact hnul),
      readTokens_eq hfits' (by rw [hjoint]; exact hst.nulFree), hcont, hjoint]
    have hesc : ∀ w, modeAfter s ≠ .wordEsc w := fun w h => hbs (suffix_of_modeAfter_wordEsc h)
    have hiff := output_joins (plainMode_modeAfter hs) hesc ht
    rw [← hiff, tokens, tokens, Transducer.output_append, Transducer.output_append]
    constructor
    · rintro ⟨ts, h, h'⟩
      rw [pure_inj] at h h'
      exact ⟨List.append_cancel_left (h.trans h'.symm), hfit⟩
    · rintro ⟨h, -⟩
      exact ⟨_, congrArg (fun u => pure (scanner.emitted .neutral s ++ u)) h, rfl⟩
  · refine iff_of_false ?_ fun h => hfit h.2
    rintro ⟨ts, hts, -⟩
    rw [readTokens_long (by rwa [LineFits, hcont])] at hts
    exact throw_ne_pure _ _ hts

/-- Inside a word, before a doubled backslash. -/
theorem readTokens_continuation_word :
    (∃ ts, readTokens (ascii ['a', '\\', '\n', '\\', '\\', 'b', '\n']) = pure ts ∧
      readTokens (ascii ['a', '\\', '\\', 'b', '\n']) = pure ts) ↔
      joins (modeAfter (ascii ['a'])) (ascii ['\\', '\\', 'b']) = true ∧
        (ascii ['a', '\\', '\\', '\\', 'b']).length < lineLimit :=
  readTokens_continuation (ascii ['a']) (ascii ['\\', '\\', 'b']) (by decide) (by decide) (by decide)

/-- Before a blank the backslash of a continuation escapes the blank: one token in place of two. -/
theorem readTokens_continuation_blank :
    PlainText (ascii ['a']) ∧ PlainText (ascii [' ', 'b']) ∧ ¬ [chBackslash] <:+ ascii ['a'] ∧
      ascii [' ', 'b'] ≠ [] ∧
      ¬ ∃ ts, readTokens (ascii ['a', '\\', '\n', ' ', 'b', '\n']) = pure ts ∧
        readTokens (ascii ['a', ' ', 'b', '\n']) = pure ts := by
  refine ⟨by decide, by decide, by decide, by decide, ?_⟩
  rintro ⟨ts, hcont, hjoint⟩
  have hone : readTokens (ascii ['a', '\\', '\n', ' ', 'b', '\n'])
      = pure [ascii ['a', ' ', 'b']] := by
    rw [readTokens_eq (by decide) (by decide)]
    rfl
  have htwo : readTokens (ascii ['a', ' ', 'b', '\n']) = pure [ascii ['a'], ascii ['b']] := by
    rw [readTokens_eq (by decide) (by decide)]
    rfl
  rw [hone, pure_inj] at hcont
  rw [htwo, pure_inj, ← hcont] at hjoint
  exact absurd hjoint (by decide)

end SysProg.Shell
