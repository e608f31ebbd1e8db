import SysProg.Shell.Word

set_option autoImplicit false

/-! # Words of adjacent pieces

A word may be written as adjacent pieces, some of them quoted. `parse_line` ends a token at a closing
quote that was opened at the start of a token, and drops quotes inside a word together with their
meaning. So the pieces make one token exactly when there is one of them, or the first one is not
quoted and the content of every other one survives the scan of an unquoted word. -/

namespace SysProg.Shell

/-! ## Pieces -/

/-- An ordinary character: no blank, quote, backslash, operator character or `#`. -/
def OrdinaryChar (c : CChar) : Prop :=
  isBlank c = false ∧ c ≠ chDquote ∧ c ≠ chSquote ∧ c ≠ chBackslash ∧ isOperator c = false ∧
    c ≠ chHash

instance (c : CChar) : Decidable (OrdinaryChar c) := inferInstanceAs (Decidable (_ ∧ _))

/-- A piece of a word, with its content. -/
inductive Piece where
  | plain (w : List CChar)
  | single (w : List CChar)
  | double (w : List CChar)
deriving DecidableEq, Repr

def Piece.content : Piece → List CChar
  | .plain w => w
  | .single w => w
  | .double w => w

/-- How a piece is written. -/
def Piece.text : Piece → List CChar
  | .plain w => w
  | .single w => chSquote :: w ++ [chSquote]
  | .double w => chDquote :: escapeDouble w ++ [chDquote]

/-- The content a piece of its kind can have. -/
def Piece.Valid : Piece → Prop
  | .plain w => w ≠ [] ∧ (∀ c ∈ w, OrdinaryChar c) ∧ NulFree w
  | .single w => chSquote ∉ w ∧ NulFree w
  | .double w => NulFree w

instance (p : Piece) : Decidable p.Valid := by
  cases p <;> unfold Piece.Valid <;> infer_instance

/-- How a sequence of pieces is written. -/
def textOf (ps : List Piece) : List CChar := ps.flatMap Piece.text

def contentOf (ps : List Piece) : List CChar := ps.flatMap Piece.content

/-- Inside an unquoted word the piece still stands for its content. -/
def Piece.Survives : Piece → Prop
  | .plain _ => True
  | .single w => ∀ c ∈ w, isBlank c = false ∧ c ≠ chBackslash ∧ c ≠ chDquote
  | .double w => ∀ c ∈ w, isBlank c = false ∧ c ≠ chSquote

instance (p : Piece) : Decidable p.Survives := by
  cases p <;> unfold Piece.Survives <;> infer_instance

def Piece.isPlain : Piece → Bool
  | .plain _ => true
  | _ => false

/-- The pieces make one word. -/
def OneWord : List Piece → Prop
  | [] => False
  | [_] => True
  | p :: ps => p.isPlain = true ∧ ∀ q ∈ ps, q.Survives

theorem textOf_cons (p : Piece) (ps : List Piece) : textOf (p :: ps) = p.text ++ textOf ps := rfl

theorem contentOf_cons (p : Piece) (ps : List Piece) :
    contentOf (p :: ps) = p.content ++ contentOf ps := rfl

theorem Piece.Valid.nulFree {p : Piece} (h : p.Valid) : NulFree p.text := by
  cases p with
  | plain w => exact h.2.2
  | single w => simp [Piece.text, h.2]
  | double w => simp [Piece.text, escapeDouble_nulFree (show NulFree w from h)]

theorem textOf_nulFree {ps : List Piece} (h : ∀ p ∈ ps, p.Valid) : NulFree (textOf ps) := by
  induction ps with
  | nil => exact nulFree_nil
  | cons p ps ih =>
      obtain ⟨hp, hps⟩ := List.forall_mem_cons.1 h
      rw [textOf_cons, nulFree_append]
      exact ⟨hp.nulFree, ih hps⟩

/-! ## Pieces that survive -/

/-- From inside the word `v`, the scanner reads `xs` as the characters `w` of this word. -/
def Adds (v xs w : List CChar) : Prop := ∀ ys,
  scanner.output (.word v) (xs ++ ys) = scanner.output (.word (v ++ w)) ys

theorem adds_nil (v : List CChar) : Adds v [] [] := by
  intro ys
  rw [List.append_nil]
  rfl

theorem Adds.trans {v xs xs' w w' : List CChar} (h : Adds v xs w) (h' : Adds (v ++ w) xs' w') :
    Adds v (xs ++ xs') (w ++ w') := by
  intro ys
  rw [List.append_assoc, h, h', List.append_assoc]

theorem adds_char {c : CChar} (hb : isBlank c = false) (hbs : c ≠ chBackslash) (hd : c ≠ chDquote)
    (hs : c ≠ chSquote) (v : List CChar) : Adds v [c] [c] :=
  fun ys => output_of_step (step_word_char hb hbs hd hs v) ys

theorem adds_quote {c : CChar} (hq : c = chDquote ∨ c = chSquote) (v : List CChar) :
    Adds v [c] [] := by
  intro ys
  rw [List.append_nil]
  exact output_of_step (step_word_quote hq v) ys

theorem adds_chars {w : List CChar}
    (h : ∀ c ∈ w, isBlank c = false ∧ c ≠ chBackslash ∧ c ≠ chDquote ∧ c ≠ chSquote)
    (v : List CChar) : Adds v w w := by
  induction w generalizing v with
  | nil => exact adds_nil v
  | cons c w ih =>
      obtain ⟨⟨hb, hbs, hd, hs⟩, hw⟩ := List.forall_mem_cons.1 h
      exact (adds_char hb hbs hd hs v).trans (ih hw (v ++ [c]))

/-- One character as it is written between double quotes. -/
def escapeChar (c : CChar) : List CChar :=
  if c = chBackslash ∨ c = chDquote then [chBackslash, c] else [c]

theorem escapeDouble_cons (c : CChar) (w : List CChar) :
    escapeDouble (c :: w) = escapeChar c ++ escapeDouble w := by
  rw [escapeDouble, escapeChar]
  split
  · rfl
  · rfl

/-- The escapes of a double-quoted piece mean the same inside an unquoted word. -/
theorem adds_escapeChar {c : CChar} (hb : isBlank c = false) (hs : c ≠ chSquote) (v : List CChar) :
    Adds v (escapeChar c) [c] := by
  intro ys
  rw [escapeChar]
  split
  · next hesc =>
      have ho : isOperator c = false := by rcases hesc with rfl | rfl <;> decide
      have hn : c ≠ chNewline := by rcases hesc with rfl | rfl <;> decide
      exact output_word_escape ho hn v ys
  · next hesc =>
      obtain ⟨hbs, hd⟩ := not_or.1 hesc
      exact adds_char hb hbs hd hs v ys

theorem adds_escapeDouble {w : List CChar} (h : ∀ c ∈ w, isBlank c = false ∧ c ≠ chSquote)
    (v : List CChar) : Adds v (escapeDouble w) w := by
  induction w generalizing v with
  | nil => exact adds_nil v
  | cons c w ih =>
      obtain ⟨⟨hb, hs⟩, hw⟩ := List.forall_mem_cons.1 h
      rw [escapeDouble_cons]
      exact (adds_escapeChar hb hs v).trans (ih hw (v ++ [c]))

theorem OrdinaryChar.taken {c : CChar} (h : OrdinaryChar c) :
    isBlank c = false ∧ c ≠ chBackslash ∧ c ≠ chDquote ∧ c ≠ chSquote :=
  ⟨h.1, h.2.2.2.1, h.2.1, h.2.2.1⟩

theorem Piece.Survives.adds {p : Piece} (hp : p.Valid) (h : p.Survives) (v : List CChar) :
    Adds v p.text p.content := by
  cases p with
  | plain w => exact adds_chars (fun c hc => (hp.2.1 c hc).taken) v
  | single w =>
      have hchars : ∀ c ∈ w, isBlank c = false ∧ c ≠ chBackslash ∧ c ≠ chDquote ∧ c ≠ chSquote := by
        intro c hc
        obtain ⟨hb, hbs, hd⟩ := h c hc
        exact ⟨hb, hbs, hd, fun he => hp.1 (he ▸ hc)⟩
      have hopen := (adds_quote (Or.inr rfl) v).trans (adds_chars hchars (v ++ []))
      have hclose := hopen.trans (adds_quote (c := chSquote) (Or.inr rfl) _)
      simpa [Piece.text, Piece.content] using hclose
  | double w =>
      have hopen := (adds_quote (Or.inl rfl) v).trans (adds_escapeDouble h (v ++ []))
      have hclose := hopen.trans (adds_quote (c := chDquote) (Or.inl rfl) _)
      simpa [Piece.text, Piece.content] using hclose

theorem adds_textOf {ps : List Piece} (hps : ∀ p ∈ ps, p.Valid) (h : ∀ p ∈ ps, p.Survives)
    (v : List CChar) : Adds v (textOf ps) (contentOf ps) := by
  induction ps generalizing v with
  | nil => exact adds_nil v
  | cons p ps ih =>
      obtain ⟨hp, hps⟩ := List.forall_mem_cons.1 hps
      obtain ⟨hsp, hsps⟩ := List.forall_mem_cons.1 h
      exact (hsp.adds hp v).trans (ih hps hsps (v ++ p.content))

/-! ## How long a word can become -/

/-- From inside the word `v`, or just after a backslash there, the first token is `v` and at most `k`
    more characters. -/
def AtMost (m : List CChar → Mode) (v t : List CChar) (k : Nat) : Prop :=
  ∃ u r, scanner.output (m v) t = (v ++ u) :: r ∧ u.length ≤ k

theorem AtMost.mono {m : List CChar → Mode} {v t : List CChar} {k k' : Nat} (h : AtMost m v t k)
    (hle : k ≤ k') : AtMost m v t k' := by
  obtain ⟨u, r, hout, hlen⟩ := h
  exact ⟨u, r, hout, le_trans hlen hle⟩

theorem AtMost.ne {m : List CChar → Mode} {v t x : List CChar} {k : Nat} (h : AtMost m v t k)
    (hlt : k < x.length) (r : List (List CChar)) : scanner.output (m v) t ≠ (v ++ x) :: r := by
  obtain ⟨u, r', hout, hlen⟩ := h
  rw [hout]
  intro heq
  obtain rfl := List.append_cancel_left (List.cons.inj heq).1
  omega

/-- A character that adds `w` to the word. -/
theorem AtMost.of_step {m m' : List CChar → Mode} {v w t : List CChar} {c : CChar} {k : Nat}
    (hstep : (m v).step c = (m' (v ++ w), [])) (h : AtMost m' (v ++ w) t k) :
    AtMost m v (c :: t) (w.length + k) := by
  obtain ⟨u, r, hout, hlen⟩ := h
  refine ⟨w ++ u, r, ?_, by rw [List.length_append]; omega⟩
  rw [output_of_step hstep, hout, List.append_assoc]
  rfl

/-- A character that ends the word. -/
theorem AtMost.of_emit {m : List CChar → Mode} {v t : List CChar} {c : CChar} {q : Mode}
    (hstep : (m v).step c = (q, [v])) (k : Nat) : AtMost m v (c :: t) k :=
  ⟨[], scanner.output q t, by rw [output_of_step hstep, List.append_nil]; rfl, Nat.zero_le k⟩

theorem Adds.atMost {v xs w t : List CChar} {k : Nat} (h : Adds v xs w)
    (ht : AtMost .word (v ++ w) t k) : AtMost .word v (xs ++ t) (w.length + k) := by
  obtain ⟨u, r, hout, hlen⟩ := ht
  exact ⟨w ++ u, r, by rw [h, hout, List.append_assoc], by rw [List.length_append]; omega⟩

/-- The character after a backslash adds at most one character. -/
theorem atMost_wordEsc {v t : List CChar} {k : Nat} (hv : v ≠ [])
    (h : ∀ v, v ≠ [] → AtMost .word v t k) (c : CChar) : AtMost .wordEsc v (c :: t) (1 + k) := by
  by_cases hbs : c = chBackslash
  · subst hbs
    exact (AtMost.of_step (step_wordEsc_backslash v) (h _ (by simp)))
  by_cases ho : isOperator c = true
  · exact AtMost.of_emit (step_wordEsc_operator ho hv) _
  by_cases hn : c = chNewline
  · have hstep : (Mode.wordEsc v).step c = (.word (v ++ []), []) := by
      rw [hn, step_wordEsc_newline, List.append_nil]
    exact (AtMost.of_step hstep (h _ (by simpa using hv))).mono (by simp)
  · exact AtMost.of_step (step_wordEsc_char (Bool.eq_false_iff.2 ho) hbs hn v) (h _ (by simp))

/-- A character in a word adds at most one character, if the one after a backslash does. -/
theorem atMost_word {v t : List CChar} {k : Nat} (hv : v ≠ []) {c : CChar}
    (h : ∀ v, v ≠ [] → AtMost .word v t k)
    (hesc : c = chBackslash → AtMost .wordEsc v t (1 + k)) : AtMost .word v (c :: t) (1 + k) := by
  by_cases hb : isBlank c = true
  · exact AtMost.of_emit (step_word_blank hb v) _
  by_cases hbs : c = chBackslash
  · have hstep : (Mode.word v).step c = (.wordEsc (v ++ []), []) := by
      rw [hbs, step_word_backslash, List.append_nil]
    exact (AtMost.of_step hstep (by rw [List.append_nil]; exact hesc hbs)).mono (by simp)
  by_cases hq : c = chDquote ∨ c = chSquote
  · have hstep : (Mode.word v).step c = (.word (v ++ []), []) := by
      rw [step_word_quote hq, List.append_nil]
    exact (AtMost.of_step hstep (h _ (by simpa using hv))).mono (by simp)
  · obtain ⟨hd, hs⟩ := not_or.1 hq
    exact AtMost.of_step (step_word_char (Bool.eq_false_iff.2 hb) hbs hd hs v) (h _ (by simp))

/-- The rest of a single-quoted piece. A backslash takes the closing quote with it when it is the
    last character. -/
theorem atMost_single {w ys : List CChar} {k : Nat} (h : ∀ v, v ≠ [] → AtMost .word v ys k) :
    (∀ v, v ≠ [] → AtMost .word v (w ++ chSquote :: ys) (w.length + k)) ∧
      ∀ v, v ≠ [] → AtMost .wordEsc v (w ++ chSquote :: ys) (max w.length 1 + k) := by
  induction w with
  | nil =>
      refine ⟨fun v hv => ?_, fun v hv => atMost_wordEsc hv h chSquote⟩
      exact (adds_quote (c := chSquote) (Or.inr rfl) v).atMost (h _ (by simpa using hv))
  | cons c w ih =>
      obtain ⟨hword, hesc⟩ := ih
      constructor
      · intro v hv
        have hchar := atMost_word hv (c := c) hword
          (fun _ => (hesc v hv).mono (by omega))
        exact hchar.mono (by rw [List.length_cons]; omega)
      · intro v hv
        exact (atMost_wordEsc hv hword c).mono (by rw [List.length_cons]; omega)

theorem escapeChar_cases (c : CChar) :
    (escapeChar c = [chBackslash, c] ∧ (c = chBackslash ∨ c = chDquote)) ∨
      (escapeChar c = [c] ∧ c ≠ chBackslash ∧ c ≠ chDquote) := by
  rw [escapeChar]
  split
  · next hesc => exact Or.inl ⟨rfl, hesc⟩
  · next hesc => exact Or.inr ⟨rfl, not_or.1 hesc⟩

theorem atMost_escapeChar {v t : List CChar} {k : Nat} (hv : v ≠ [])
    (h : ∀ v, v ≠ [] → AtMost .word v t k) (c : CChar) :
    AtMost .word v (escapeChar c ++ t) (1 + k) := by
  rcases escapeChar_cases c with ⟨-, hesc⟩ | ⟨heq, hbs, -⟩
  · have hb : isBlank c = false := by rcases hesc with rfl | rfl <;> decide
    have hs : c ≠ chSquote := by rcases hesc with rfl | rfl <;> decide
    exact (adds_escapeChar hb hs v).atMost (h _ (by simp))
  · rw [heq]
    exact atMost_word hv h (fun he => absurd he hbs)

/-- The rest of a double-quoted piece. -/
theorem atMost_double {w ys : List CChar} {k : Nat} (h : ∀ v, v ≠ [] → AtMost .word v ys k) :
    ∀ v, v ≠ [] → AtMost .word v (escapeDouble w ++ chDquote :: ys) (w.length + k) := by
  induction w with
  | nil =>
      intro v hv
      exact (adds_quote (c := chDquote) (Or.inl rfl) v).atMost (h _ (by simpa using hv))
  | cons c w ih =>
      intro v hv
      rw [escapeDouble_cons, List.append_assoc]
      exact (atMost_escapeChar hv ih c).mono (by rw [List.length_cons]; omega)

theorem atMost_textOf {ps : List Piece} (hps : ∀ p ∈ ps, p.Valid) :
    ∀ v, v ≠ [] → AtMost .word v (textOf ps) (contentOf ps).length := by
  induction ps with
  | nil => exact fun v _ => ⟨[], [], by simp [textOf, Mode.flush], by simp⟩
  | cons p ps ih =>
      obtain ⟨hp, hqs⟩ := List.forall_mem_cons.1 hps
      intro v hv
      rw [textOf_cons, contentOf_cons, List.length_append]
      cases p with
      | plain w =>
          have hadds := adds_chars (fun c hc => (hp.2.1 c hc).taken) v
          exact hadds.atMost (ih hqs _ (by simp [hv]))
      | single w =>
          have hrest := (atMost_single (w := w) (ih hqs)).1 (v ++ []) (by simpa using hv)
          have h := (adds_quote (c := chSquote) (Or.inr rfl) v).atMost hrest
          simpa [Piece.text, Piece.content] using h
      | double w =>
          have hrest := atMost_double (w := w) (ih hqs) (v ++ []) (by simpa using hv)
          have h := (adds_quote (c := chDquote) (Or.inl rfl) v).atMost hrest
          simpa [Piece.text, Piece.content] using h

/-! ## Pieces that do not survive -/

theorem single_ne {w ys R : List CChar} (h : ∀ v, v ≠ [] → AtMost .word v ys R.length)
    (hw : chSquote ∉ w) (hbad : ¬ (Piece.single w).Survives) :
    ∀ v, v ≠ [] → scanner.output (.word v) (w ++ chSquote :: ys) ≠ [v ++ (w ++ R)] := by
  induction w with
  | nil => exact absurd (by simp [Piece.Survives]) hbad
  | cons c w ih =>
      intro v hv
      obtain ⟨hcs, hws⟩ := not_or.1 (mt List.mem_cons.2 hw)
      by_cases hb : isBlank c = true
      · have hend : AtMost .word v (c :: (w ++ chSquote :: ys)) 0 :=
          AtMost.of_emit (step_word_blank hb v) 0
        exact hend.ne (by simp) []
      by_cases hbs : c = chBackslash
      · subst hbs
        rw [List.cons_append, output_of_step (step_word_backslash v), List.nil_append]
        cases w with
        | nil =>
            -- the backslash makes the closing quote a character of the word
            have ho : isOperator chSquote = false := by decide
            have hstep := step_wordEsc_char ho (by decide) (by decide) v
            obtain ⟨u, r, hout, -⟩ := h (v ++ [chSquote]) (by simp)
            rw [List.nil_append, output_of_step hstep, hout, List.append_assoc]
            exact cons_append_ne (by decide) r []
        | cons d w =>
            refine ((atMost_single (w := d :: w) h).2 v hv).ne ?_ []
            simp only [List.cons_append, List.length_cons, List.length_append]
            omega
      by_cases hd : c = chDquote
      · rw [List.cons_append, output_of_step (step_word_quote (Or.inl hd) v), List.nil_append]
        refine ((atMost_single (w := w) h).1 v hv).ne ?_ []
        simp only [List.cons_append, List.length_cons, List.length_append]
        omega
      · have hb' := Bool.eq_false_iff.2 hb
        have hbad' : ¬ (Piece.single w).Survives := fun hsurv =>
          hbad (List.forall_mem_cons.2 ⟨⟨hb', hbs, hd⟩, hsurv⟩)
        have hrest := ih hws hbad' (v ++ [c]) (by simp)
        rw [List.cons_append, output_of_step (step_word_char hb' hbs hd (Ne.symm hcs) v),
          List.nil_append]
        rwa [List.append_assoc] at hrest

theorem double_ne {w ys R : List CChar} (h : ∀ v, v ≠ [] → AtMost .word v ys R.length)
    (hbad : ¬ (Piece.double w).Survives) :
    ∀ v, v ≠ [] → scanner.output (.word v) (escapeDouble w ++ chDquote :: ys)
      ≠ [v ++ (w ++ R)] := by
  induction w with
  | nil => exact absurd (by simp [Piece.Survives]) hbad
  | cons c w ih =>
      intro v hv
      rw [escapeDouble_cons, List.append_assoc]
      by_cases hb : isBlank c = true
      · have hplain : escapeChar c = [c] := by
          rcases escapeChar_cases c with ⟨-, rfl | rfl⟩ | ⟨heq, -⟩
          · exact absurd hb (by decide)
          · exact absurd hb (by decide)
          · exact heq
        have hend : AtMost .word v (c :: (escapeDouble w ++ chDquote :: ys)) 0 :=
          AtMost.of_emit (step_word_blank hb v) 0
        rw [hplain]
        exact hend.ne (by simp) []
      by_cases hs : c = chSquote
      · subst hs
        have hrest := atMost_double (w := w) h (v ++ []) (by simpa using hv)
        refine ((adds_quote (c := chSquote) (Or.inr rfl) v).atMost hrest).ne ?_ []
        simp only [List.cons_append, List.length_cons, List.length_append, List.length_nil]
        omega
      · have hb' := Bool.eq_false_iff.2 hb
        have hbad' : ¬ (Piece.double w).Survives := fun hsurv =>
          hbad (List.forall_mem_cons.2 ⟨⟨hb', hs⟩, hsurv⟩)
        have hrest := ih hbad' (v ++ [c]) (by simp)
        rw [adds_escapeChar hb' hs v]
        rwa [List.append_assoc] at hrest

theorem textOf_ne {ps : List Piece} (hps : ∀ p ∈ ps, p.Valid) (hbad : ¬ ∀ p ∈ ps, p.Survives) :
    ∀ v, v ≠ [] → scanner.output (.word v) (textOf ps) ≠ [v ++ contentOf ps] := by
  induction ps with
  | nil => exact absurd (by simp) hbad
  | cons p ps ih =>
      obtain ⟨hp, hps⟩ := List.forall_mem_cons.1 hps
      intro v hv
      rw [textOf_cons, contentOf_cons]
      by_cases hsurv : p.Survives
      · have hbad' : ¬ ∀ q ∈ ps, q.Survives := fun h => hbad (List.forall_mem_cons.2 ⟨hsurv, h⟩)
        have hrest := ih hps hbad' (v ++ p.content) (by simp [hv])
        rw [hsurv.adds hp v]
        rwa [List.append_assoc] at hrest
      · have hlen := atMost_textOf hps
        cases p with
        | plain w => exact absurd trivial hsurv
        | single w =>
            have hrest := single_ne hlen hp.1 hsurv v hv
            have hopen := adds_quote (c := chSquote) (Or.inr rfl) v (w ++ chSquote :: textOf ps)
            rw [List.append_nil, List.singleton_append] at hopen
            simpa [Piece.text, Piece.content, hopen] using hrest
        | double w =>
            have hrest := double_ne hlen hsurv v hv
            have hopen := adds_quote (c := chDquote) (Or.inl rfl) v
              (escapeDouble w ++ chDquote :: textOf ps)
            rw [List.append_nil, List.singleton_append] at hopen
            simpa [Piece.text, Piece.content, hopen] using hrest

/-! ## When the pieces make one word -/

theorem oneWord_cons {p : Piece} {ps : List Piece} :
    OneWord (p :: ps) ↔ ps = [] ∨ (p.isPlain = true ∧ ∀ q ∈ ps, q.Survives) := by
  cases ps with
  | nil => simp [OneWord]
  | cons q ps => simp [OneWord]

/-- An unquoted piece at the start of a token. -/
theorem output_plain {w : List CChar} (hp : (Piece.plain w).Valid) (ys : List CChar) :
    scanner.output .neutral (w ++ ys) = scanner.output (.word w) ys := by
  obtain ⟨hne, hord, -⟩ := hp
  obtain ⟨c, w, rfl⟩ := List.exists_cons_of_ne_nil hne
  obtain ⟨⟨hb, hd, hs, hbs, ho, hh⟩, hw⟩ := List.forall_mem_cons.1 hord
  have hopened : Mode.opened c = .word [c] := by
    simp only [Mode.opened, hb, ho, if_neg hh, if_neg hs, if_neg hd, if_neg hbs,
      Bool.false_eq_true, if_false]
  rw [List.cons_append, output_neutral_cons, hopened]
  exact adds_chars (fun d hd => (hw d hd).taken) [c] ys

theorem Piece.Valid.quoting {p : Piece} (hp : p.Valid) (hq : p.isPlain = false) :
    Quoting p.content p.text := by
  cases p with
  | plain w => exact absurd hq (by simp [Piece.isPlain])
  | single w => exact .single hp.1
  | double w => exact .double w

theorem output_piece_ne_nil {p : Piece} (hp : p.Valid) (ys : List CChar) :
    scanner.output .neutral (p.text ++ ys) ≠ [] := by
  cases hq : p.isPlain with
  | false =>
      rw [(reads_quoting (hp.quoting hq) ys).output]
      simp
  | true =>
      cases p with
      | plain w =>
          obtain ⟨⟨u, r, hword⟩, -⟩ := output_word ys
          rw [show (Piece.plain w).text = w from rfl, output_plain hp, hword w hp.1]
          simp
      | single w => exact absurd hq (by simp [Piece.isPlain])
      | double w => exact absurd hq (by simp [Piece.isPlain])

/-- **When adjacent pieces make one word**: exactly when there is one of them, or the first is not
    quoted and all the others survive. -/
theorem parseLine_pieces (ps : List Piece) (hne : ps ≠ []) (hps : ∀ p ∈ ps, p.Valid) :
    parseTokens (textOf ps) = pure [contentOf ps] ↔ OneWord ps := by
  rw [parseTokens_eq (textOf_nulFree hps), pure_inj, tokens]
  obtain ⟨p, ps, rfl⟩ := List.exists_cons_of_ne_nil hne
  obtain ⟨hp, hqs⟩ := List.forall_mem_cons.1 hps
  rw [oneWord_cons, textOf_cons, contentOf_cons]
  cases hq : p.isPlain with
  | false =>
      -- the closing quote ends a token
      rw [(reads_quoting (hp.quoting hq) _).output]
      cases ps with
      | nil => simp [textOf, contentOf, Mode.flush]
      | cons q ps =>
          refine iff_of_false ?_ (by simp)
          have hrest := output_piece_ne_nil (hqs q (List.mem_cons_self ..)) (textOf ps)
          intro h
          exact hrest (List.cons.inj h).2
  | true =>
      cases p with
      | plain w =>
          rw [show (Piece.plain w).text = w from rfl, show (Piece.plain w).content = w from rfl,
            output_plain hp]
          by_cases hsurv : ∀ q ∈ ps, q.Survives
          · refine iff_of_true ?_ (Or.inr ⟨rfl, hsurv⟩)
            have hadds := adds_textOf hqs hsurv w []
            rw [List.append_nil] at hadds
            rw [hadds]
            rfl
          · refine iff_of_false (textOf_ne hqs hsurv w hp.1) ?_
            rintro (rfl | ⟨-, h⟩)
            · exact hsurv (by simp)
            · exact hsurv h
      | single w => exact absurd hq (by simp [Piece.isPlain])
      | double w => exact absurd hq (by simp [Piece.isPlain])

/-- The word `a"b|\"'c#'`. -/
theorem parseLine_pieces_mixed :
    parseTokens (textOf [.plain (ascii ['a']), .double (ascii ['b', '|', '\\']),
        .single (ascii ['c', '#'])])
      = pure [contentOf [.plain (ascii ['a']), .double (ascii ['b', '|', '\\']),
        .single (ascii ['c', '#'])]] ↔
      OneWord [.plain (ascii ['a']), .double (ascii ['b', '|', '\\']), .single (ascii ['c', '#'])] :=
  parseLine_pieces _ (by simp) (by decide)

/-- `'a''b'` is two tokens. -/
theorem parseLine_pieces_quoted :
    (∀ p ∈ [Piece.single (ascii ['a']), Piece.single (ascii ['b'])], p.Valid) ∧
      parseTokens (textOf [.single (ascii ['a']), .single (ascii ['b'])])
        = pure [ascii ['a'], ascii ['b']] ∧
      parseTokens (textOf [.single (ascii ['a']), .single (ascii ['b'])])
        ≠ pure [contentOf [.single (ascii ['a']), .single (ascii ['b'])]] := by
  refine ⟨by decide, ?_⟩
  rw [parseTokens_eq (by decide), pure_inj, Ne, pure_inj]
  decide

end SysProg.Shell
