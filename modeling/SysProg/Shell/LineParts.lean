import Mathlib.Data.List.Induction
import Mathlib.Algebra.Group.Nat.Even
import SysProg.Shell.Word

set_option autoImplicit false

/-! # The parts of a command line

A command line as a text: blanks and operator characters, quoted strings, unquoted words and a comment,
one behind the other, the last one perhaps unfinished. A double quote of the line either delimits a
string or is a character of some part: `held` counts the second kind. The definitions know nothing of
`parse_line`. Every text is cut into parts in this way (`exists_reading`), and its scan ends in a string
exactly when the text does (`Reading.ending`). -/

namespace SysProg.Shell

/-! ## Characters -/

/-- A character, or one with a backslash before it. -/
inductive Glyph where
  | plain (c : CChar)
  | escaped (c : CChar)

def Glyph.text : Glyph → List CChar
  | .plain c => [c]
  | .escaped c => [chBackslash, c]

def glyphText (gs : List Glyph) : List CChar := gs.flatMap Glyph.text

/-- A character between double quotes. -/
def Glyph.InDouble : Glyph → Prop
  | .plain c => c ≠ chDquote ∧ c ≠ chBackslash
  | .escaped _ => True

/-- A character of an unquoted word: blanks end it, and so does an escaped operator. -/
def Glyph.InWord : Glyph → Prop
  | .plain c => isBlank c = false ∧ c ≠ chBackslash
  | .escaped c => isOperator c = false

/-- Nothing of it is left in the token of the word. -/
def Glyph.Dropped : Glyph → Prop
  | .plain c => c = chDquote ∨ c = chSquote
  | .escaped c => c = chNewline

/-- A character that begins a word. -/
def BeginsWord (c : CChar) : Prop :=
  isBlank c = false ∧ c ≠ chHash ∧ isOperator c = false ∧ c ≠ chSquote ∧ c ≠ chDquote

/-- The characters of a word, up to where it ends or the line does. -/
structure WordText (gs : List Glyph) : Prop where
  inWord : ∀ g ∈ gs, g.InWord
  begins : ∀ c ∈ (glyphText gs).head?, BeginsWord c

/-! ## Parts -/

/-- A finished part. -/
inductive LinePart where
  /-- A blank or an operator character. -/
  | gap (c : CChar)
  | single (w : List CChar)
  | double (gs : List Glyph)
  /-- A word and the blank behind it. -/
  | word (gs : List Glyph) (blank : CChar)
  /-- A word that ends with a backslash and an operator character. -/
  | wordOperator (gs : List Glyph) (o : CChar)
  /-- A word of which nothing is left up to an escaped operator character; the character behind that is
      the last one of the word, whatever it is. -/
  | operatorWord (gs : List Glyph) (o c : CChar)

/-- What is behind the finished parts. -/
inductive LineRest where
  | closed
  | comment (w : List CChar)
  | single (w : List CChar)
  /-- A string between double quotes that is not finished, perhaps with a backslash at its end. -/
  | double (gs : List Glyph) (escape : Bool)
  | word (gs : List Glyph) (escape : Bool)
  | operatorWord (gs : List Glyph) (o : CChar)

def escapeText (escape : Bool) : List CChar := if escape then [chBackslash] else []

def LinePart.text : LinePart → List CChar
  | .gap c => [c]
  | .single w => chSquote :: w ++ [chSquote]
  | .double gs => chDquote :: glyphText gs ++ [chDquote]
  | .word gs b => glyphText gs ++ [b]
  | .wordOperator gs o => glyphText gs ++ [chBackslash, o]
  | .operatorWord gs o c => glyphText gs ++ [chBackslash, o, c]

def LineRest.text : LineRest → List CChar
  | .closed => []
  | .comment w => chHash :: w
  | .single w => chSquote :: w
  | .double gs escape => chDquote :: glyphText gs ++ escapeText escape
  | .word gs escape => glyphText gs ++ escapeText escape
  | .operatorWord gs o => glyphText gs ++ [chBackslash, o]

def LinePart.Valid : LinePart → Prop
  | .gap c => isBlank c = true ∨ isOperator c = true
  | .single w => chSquote ∉ w
  | .double gs => ∀ g ∈ gs, g.InDouble
  | .word gs b => WordText gs ∧ gs ≠ [] ∧ isBlank b = true
  | .wordOperator gs o => WordText gs ∧ (∃ g ∈ gs, ¬ g.Dropped) ∧ isOperator o = true
  | .operatorWord gs o _ => WordText gs ∧ (∀ g ∈ gs, g.Dropped) ∧ isOperator o = true

def LineRest.Valid : LineRest → Prop
  | .closed => True
  | .comment _ => True
  | .single w => chSquote ∉ w
  | .double gs _ => ∀ g ∈ gs, g.InDouble
  | .word gs escape => WordText gs ∧ (gs ≠ [] ∨ escape = true)
  | .operatorWord gs o => WordText gs ∧ (∀ g ∈ gs, g.Dropped) ∧ isOperator o = true

/-- How many double quotes are characters of the part: escaped ones, and those in words and between
    single quotes. -/
def LinePart.held : LinePart → Nat
  | .gap _ => 0
  | .single w => w.count chDquote
  | .double gs => (glyphText gs).count chDquote
  | .word gs _ => (glyphText gs).count chDquote
  | .wordOperator gs _ => (glyphText gs).count chDquote
  | .operatorWord gs _ c => (glyphText gs ++ [c]).count chDquote

def LineRest.held : LineRest → Nat
  | .closed => 0
  | .comment w => w.count chDquote
  | .single w => w.count chDquote
  | .double gs _ => (glyphText gs).count chDquote
  | .word gs _ => (glyphText gs).count chDquote
  | .operatorWord gs _ => (glyphText gs).count chDquote

/-- `text` is cut into the parts `ps` and, behind them, `e`. -/
structure Reading (text : List CChar) (ps : List LinePart) (e : LineRest) : Prop where
  parts : ∀ p ∈ ps, p.Valid
  rest : e.Valid
  text : text = ps.flatMap LinePart.text ++ e.text

/-- The double quotes of a line that delimit nothing. -/
def held (ps : List LinePart) (e : LineRest) : Nat := (ps.map LinePart.held).sum + e.held

/-! ## Every text is cut into parts -/

theorem glyphText_snoc (gs : List Glyph) (g : Glyph) :
    glyphText (gs ++ [g]) = glyphText gs ++ g.text := by
  simp [glyphText]

theorem WordText.snoc {gs : List Glyph} {g : Glyph} (h : WordText gs) (hne : gs ≠ [])
    (hg : g.InWord) : WordText (gs ++ [g]) := by
  refine ⟨?_, ?_⟩
  · intro g' hg'
    rcases List.mem_append.1 hg' with hmem | hmem
    · exact h.inWord g' hmem
    · rw [List.mem_singleton.1 hmem]
      exact hg
  · obtain ⟨g', gs, rfl⟩ := List.exists_cons_of_ne_nil hne
    intro c hc
    refine h.begins c ?_
    cases g' <;> simpa [glyphText, Glyph.text] using hc

theorem wordText_nil : WordText [] := ⟨by simp, by simp [glyphText]⟩

/-- The first character of a word. -/
theorem wordText_plain {c : CChar} (hc : BeginsWord c) (hbs : c ≠ chBackslash) :
    WordText [.plain c] := by
  refine ⟨?_, ?_⟩
  · intro g hg
    rw [List.mem_singleton.1 hg]
    exact ⟨hc.1, hbs⟩
  · intro d hd
    obtain rfl : c = d := by simpa [glyphText, Glyph.text] using hd
    exact hc

theorem wordText_escaped {c : CChar} (hc : isOperator c = false) : WordText [.escaped c] := by
  refine ⟨?_, ?_⟩
  · intro g hg
    rw [List.mem_singleton.1 hg]
    exact hc
  · intro d hd
    obtain rfl : chBackslash = d := by simpa [glyphText, Glyph.text] using hd
    exact ⟨by decide, by decide, by decide, by decide, by decide⟩

/-- An escaped character goes on with a word, or begins one. -/
theorem WordText.escaped {gs : List Glyph} {c : CChar} (h : WordText gs)
    (hc : isOperator c = false) : WordText (gs ++ [.escaped c]) := by
  by_cases hne : gs = []
  · rw [hne]
    exact wordText_escaped hc
  · exact h.snoc hne hc

section Snoc

variable {text : List CChar} {ps : List LinePart} {c : CChar}

/-- A character that finishes the last part. -/
theorem Reading.finish {e : LineRest} {p : LinePart} (h : Reading text ps e) (hp : p.Valid)
    (htext : p.text = e.text ++ [c]) : Reading (text ++ [c]) (ps ++ [p]) .closed := by
  refine ⟨?_, trivial, ?_⟩
  · intro q hq
    rcases List.mem_append.1 hq with hmem | hmem
    · exact h.parts q hmem
    · rw [List.mem_singleton.1 hmem]
      exact hp
  · rw [h.text]
    simp [LineRest.text, htext]

/-- A character that goes on with it. -/
theorem Reading.goOn {e f : LineRest} (h : Reading text ps e) (hf : f.Valid)
    (htext : f.text = e.text ++ [c]) : Reading (text ++ [c]) ps f :=
  ⟨h.parts, hf, by rw [h.text, htext, List.append_assoc]⟩

/-- A character behind finished parts. -/
theorem Reading.closed_snoc (h : Reading text ps .closed) :
    ∃ ps' e', Reading (text ++ [c]) ps' e' := by
  by_cases hgap : isBlank c = true ∨ isOperator c = true
  · exact ⟨_, _, h.finish (p := .gap c) hgap rfl⟩
  obtain ⟨hb, ho⟩ := not_or.1 hgap
  by_cases hh : c = chHash
  · exact ⟨_, _, h.goOn (f := .comment []) trivial (by rw [hh]; rfl)⟩
  by_cases hs : c = chSquote
  · exact ⟨_, _, h.goOn (f := .single []) List.not_mem_nil (by rw [hs]; rfl)⟩
  by_cases hd : c = chDquote
  · exact ⟨_, _, h.goOn (f := .double [] false) (by simp [LineRest.Valid]) (by rw [hd]; rfl)⟩
  by_cases hbs : c = chBackslash
  · exact ⟨_, _, h.goOn (f := .word [] true) ⟨wordText_nil, Or.inr rfl⟩ (by rw [hbs]; rfl)⟩
  · have hbegins : BeginsWord c :=
      ⟨Bool.eq_false_iff.2 hb, hh, Bool.eq_false_iff.2 ho, hs, hd⟩
    exact ⟨_, _, h.goOn (f := .word [.plain c] false)
      ⟨wordText_plain hbegins hbs, Or.inl (by simp)⟩ rfl⟩

/-- A character in a string between double quotes. -/
theorem Reading.double_snoc {gs : List Glyph} {escape : Bool}
    (h : Reading text ps (.double gs escape)) : ∃ ps' e', Reading (text ++ [c]) ps' e' := by
  have hgs : ∀ g ∈ gs, g.InDouble := h.rest
  have hsnoc : ∀ {g : Glyph}, g.InDouble → ∀ g' ∈ gs ++ [g], g'.InDouble := by
    intro g hg g' hg'
    rcases List.mem_append.1 hg' with hmem | hmem
    · exact hgs g' hmem
    · rw [List.mem_singleton.1 hmem]
      exact hg
  cases escape with
  | true =>
      refine ⟨_, _, h.goOn (f := .double (gs ++ [Glyph.escaped c]) false)
        (hsnoc (g := .escaped c) trivial) ?_⟩
      simp [LineRest.text, glyphText_snoc, Glyph.text, escapeText]
  | false =>
      by_cases hd : c = chDquote
      · refine ⟨_, _, h.finish (p := .double gs) hgs ?_⟩
        simp [LineRest.text, LinePart.text, escapeText, hd]
      by_cases hbs : c = chBackslash
      · refine ⟨_, _, h.goOn (f := .double gs true) hgs ?_⟩
        simp [LineRest.text, escapeText, hbs]
      · refine ⟨_, _, h.goOn (f := .double (gs ++ [Glyph.plain c]) false)
          (hsnoc (g := .plain c) ⟨hd, hbs⟩) ?_⟩
        simp [LineRest.text, glyphText_snoc, Glyph.text, escapeText]

/-- A character in a word. -/
theorem Reading.word_snoc {gs : List Glyph} (h : Reading text ps (.word gs false)) :
    ∃ ps' e', Reading (text ++ [c]) ps' e' := by
  obtain ⟨hword, hne⟩ : WordText gs ∧ (gs ≠ [] ∨ false = true) := h.rest
  have hne : gs ≠ [] := hne.resolve_right Bool.false_ne_true
  by_cases hb : isBlank c = true
  · refine ⟨_, _, h.finish (p := .word gs c) ⟨hword, hne, hb⟩ ?_⟩
    simp [LineRest.text, LinePart.text, escapeText]
  by_cases hbs : c = chBackslash
  · refine ⟨_, _, h.goOn (f := .word gs true) ⟨hword, Or.inl hne⟩ ?_⟩
    simp [LineRest.text, escapeText, hbs]
  · refine ⟨_, _, h.goOn (f := .word (gs ++ [Glyph.plain c]) false)
      ⟨hword.snoc (g := .plain c) hne ⟨Bool.eq_false_iff.2 hb, hbs⟩, Or.inl (by simp)⟩ ?_⟩
    simp [LineRest.text, glyphText_snoc, Glyph.text, escapeText]

/-- A character behind a backslash in a word. -/
theorem Reading.wordEscape_snoc {gs : List Glyph} (h : Reading text ps (.word gs true)) :
    ∃ ps' e', Reading (text ++ [c]) ps' e' := by
  obtain ⟨hword, -⟩ : WordText gs ∧ _ := h.rest
  by_cases ho : isOperator c = true
  · by_cases hdrop : ∀ g ∈ gs, g.Dropped
    · refine ⟨_, _, h.goOn (f := .operatorWord gs c) ⟨hword, hdrop, ho⟩ ?_⟩
      simp [LineRest.text, escapeText]
    · have hkept : ∃ g ∈ gs, ¬ g.Dropped := by
        by_contra hnone
        exact hdrop fun g hg => by_contra fun hk => hnone ⟨g, hg, hk⟩
      refine ⟨_, _, h.finish (p := .wordOperator gs c) ⟨hword, hkept, ho⟩ ?_⟩
      simp [LineRest.text, LinePart.text, escapeText]
  · refine ⟨_, _, h.goOn (f := .word (gs ++ [Glyph.escaped c]) false)
      ⟨hword.escaped (Bool.eq_false_iff.2 ho), Or.inl (by simp)⟩ ?_⟩
    simp [LineRest.text, glyphText_snoc, Glyph.text, escapeText]

end Snoc

theorem exists_reading (text : List CChar) : ∃ ps e, Reading text ps e := by
  induction text using List.reverseRecOn with
  | nil => exact ⟨[], .closed, by simp, trivial, rfl⟩
  | append_singleton text c ih =>
      obtain ⟨ps, e, h⟩ := ih
      cases e with
      | closed => exact h.closed_snoc
      | comment w => exact ⟨_, _, h.goOn (f := .comment (w ++ [c])) trivial rfl⟩
      | single w =>
          have hw : chSquote ∉ w := h.rest
          by_cases hs : c = chSquote
          · refine ⟨_, _, h.finish (p := .single w) hw ?_⟩
            simp [LineRest.text, LinePart.text, hs]
          · refine ⟨_, _, h.goOn (f := .single (w ++ [c])) ?_ rfl⟩
            simp only [LineRest.Valid, List.mem_append, List.mem_singleton, not_or]
            exact ⟨hw, Ne.symm hs⟩
      | double gs escape => exact h.double_snoc
      | word gs escape =>
          cases escape with
          | false => exact h.word_snoc
          | true => exact h.wordEscape_snoc
      | operatorWord gs o =>
          refine ⟨_, _, h.finish (p := .operatorWord gs o c) h.rest ?_⟩
          simp [LineRest.text, LinePart.text]

/-! ## The scan of the parts -/

/-- Between tokens, perhaps with an operator character that could be doubled. -/
def Mode.Between : Mode → Prop
  | .neutral => True
  | .operator o => isOperator o = true
  | _ => False

section Scan

variable {m : Mode} {c : CChar}

theorem between_gap (hm : m.Between) (hc : isBlank c = true ∨ isOperator c = true) :
    (m.step c).1.Between := by
  have hopened : (Mode.opened c).Between := by
    rcases hc with hb | ho
    · rw [opened_of_isBlank hb]
      trivial
    · rw [opened_of_isOperator ho]
      exact ho
  cases m with
  | neutral => exact hopened
  | operator o =>
      rw [Mode.step]
      split
      · trivial
      · exact hopened
  | _ => cases hm

theorem between_step (hm : m.Between) (ho : isOperator c = false) : (m.step c).1 = .opened c := by
  cases m with
  | neutral => rfl
  | operator o =>
      have hne : c ≠ o := by
        rintro rfl
        exact Bool.false_ne_true (ho.symm.trans hm)
      rw [Mode.step, if_neg hne]
  | _ => cases hm

theorem state_single {w : List CChar} (h : chSquote ∉ w) (v : List CChar) :
    ∃ v', scanner.state (.single v) w = .single v' := by
  induction w generalizing v with
  | nil => exact ⟨v, rfl⟩
  | cons c w ih =>
      obtain ⟨hc, hw⟩ := not_or.1 (mt List.mem_cons.2 h)
      rw [Transducer.state_cons, scanner_step, Mode.step, if_neg (Ne.symm hc)]
      exact ih hw _

theorem state_comment (w : List CChar) : scanner.state .comment w = .comment := by
  induction w with
  | nil => rfl
  | cons c w ih => exact ih

theorem state_double {gs : List Glyph} (h : ∀ g ∈ gs, g.InDouble) (v : List CChar) :
    ∃ v', scanner.state (.double v) (glyphText gs) = .double v' := by
  induction gs generalizing v with
  | nil => exact ⟨v, rfl⟩
  | cons g gs ih =>
      obtain ⟨hg, hgs⟩ := List.forall_mem_cons.1 h
      rw [glyphText, List.flatMap_cons, Transducer.state_append]
      cases g with
      | plain c =>
          have hstep : scanner.state (.double v) [c] = .double (v ++ [c]) := by
            simp only [Transducer.state_cons, scanner_step, Mode.step, if_neg hg.1, if_neg hg.2,
              Transducer.state_nil]
          rw [Glyph.text, hstep]
          exact ih hgs _
      | escaped c => exact ih hgs (v ++ unescape c)

/-- Reading the characters of a word, which stays empty while they are dropped. -/
theorem state_wordGlyphs {gs : List Glyph} (h : ∀ g ∈ gs, g.InWord) (v : List CChar) :
    ∃ v', scanner.state (.word v) (glyphText gs) = .word v' ∧
      (v' = [] ↔ v = [] ∧ ∀ g ∈ gs, g.Dropped) := by
  induction gs generalizing v with
  | nil => exact ⟨v, rfl, by simp⟩
  | cons g gs ih =>
      obtain ⟨hg, hgs⟩ := List.forall_mem_cons.1 h
      rw [glyphText, List.flatMap_cons, Transducer.state_append]
      -- one character is dropped or put at the end of the word
      obtain ⟨u, hu, hempty⟩ : ∃ u, scanner.state (.word v) g.text = .word u ∧
          (u = [] ↔ v = [] ∧ g.Dropped) := by
        cases g with
        | plain c =>
            by_cases hq : c = chDquote ∨ c = chSquote
            · refine ⟨v, ?_, by simp [Glyph.Dropped, hq]⟩
              rw [Glyph.text, Transducer.state_cons, scanner_step, step_word_quote hq]
              rfl
            · refine ⟨v ++ [c], ?_, by simp [Glyph.Dropped, hq]⟩
              obtain ⟨hd, hs⟩ := not_or.1 hq
              rw [Glyph.text, Transducer.state_cons, scanner_step, step_word_char hg.1 hg.2 hd hs]
              rfl
        | escaped c =>
            rw [Glyph.text, Transducer.state_cons, scanner_step, step_word_backslash,
              Transducer.state_cons, scanner_step]
            by_cases hbs : c = chBackslash
            · refine ⟨v ++ [chBackslash], ?_, by simp [Glyph.Dropped, hbs]⟩
              rw [hbs, step_wordEsc_backslash]
              rfl
            by_cases hn : c = chNewline
            · refine ⟨v, ?_, by simp [Glyph.Dropped, hn]⟩
              rw [hn, step_wordEsc_newline]
              rfl
            · refine ⟨v ++ [c], ?_, by simp [Glyph.Dropped, hn]⟩
              rw [step_wordEsc_char hg hbs hn]
              rfl
      obtain ⟨v', hv', hempty'⟩ := ih hgs u
      refine ⟨v', by rw [hu]; exact hv', ?_⟩
      rw [hempty', hempty, List.forall_mem_cons, and_assoc]

/-- A word is read from between tokens as from the empty word. -/
theorem state_begins {xs : List CChar} (hm : m.Between) (hne : xs ≠ [])
    (h : ∀ c ∈ xs.head?, BeginsWord c) : scanner.state m xs = scanner.state (.word []) xs := by
  obtain ⟨c, xs, rfl⟩ := List.exists_cons_of_ne_nil hne
  obtain ⟨hb, hh, ho, hs, hd⟩ := h c rfl
  rw [Transducer.state_cons, Transducer.state_cons, scanner_step, scanner_step, between_step hm ho]
  by_cases hbs : c = chBackslash
  · subst hbs
    rfl
  · rw [step_word_char hb hbs hd hs, Mode.opened]
    simp only [hb, if_neg hh, ho, if_neg hs, if_neg hd, if_neg hbs, Bool.false_eq_true, if_false,
      List.nil_append]

theorem WordText.state {gs : List Glyph} (h : WordText gs) (hm : m.Between) (ys : List CChar)
    (hne : gs ≠ [] ∨ ys.head? = some chBackslash) :
    ∃ v, scanner.state m (glyphText gs ++ ys) = scanner.state (.word v) ys ∧
      (v = [] ↔ ∀ g ∈ gs, g.Dropped) := by
  have hbegin : scanner.state m (glyphText gs ++ ys)
      = scanner.state (.word []) (glyphText gs ++ ys) := by
    cases gs with
    | nil =>
        have hys : ys.head? = some chBackslash := hne.resolve_left (fun h => h rfl)
        refine state_begins hm ?_ ?_
        · rintro hnil
          rw [show ys = [] from hnil] at hys
          cases hys
        · intro c hc
          obtain rfl : chBackslash = c := Option.some.inj (hys.symm.trans hc)
          exact ⟨by decide, by decide, by decide, by decide, by decide⟩
    | cons g gs =>
        refine state_begins hm (by cases g <;> simp [glyphText, Glyph.text]) fun c hc => ?_
        refine h.begins c ?_
        cases g <;> simpa [glyphText, Glyph.text] using hc
  obtain ⟨v, hv, hempty⟩ := state_wordGlyphs h.inWord []
  refine ⟨v, ?_, hempty.trans (and_iff_right rfl)⟩
  rw [hbegin, Transducer.state_append, hv]

/-- **A finished part is read from between tokens to between tokens.** -/
theorem LinePart.Valid.state {p : LinePart} (hp : p.Valid) (hm : m.Between) :
    (scanner.state m p.text).Between := by
  cases p with
  | gap c => exact between_gap hm hp
  | single w =>
      obtain ⟨v, hv⟩ := state_single hp []
      have hopen : (m.step chSquote).1 = .single [] := between_step hm rfl
      rw [LinePart.text, List.cons_append, Transducer.state_cons, scanner_step, hopen,
        Transducer.state_append, hv]
      trivial
  | double gs =>
      obtain ⟨v, hv⟩ := state_double hp []
      have hopen : (m.step chDquote).1 = .double [] := between_step hm rfl
      rw [LinePart.text, List.cons_append, Transducer.state_cons, scanner_step, hopen,
        Transducer.state_append, hv]
      trivial
  | word gs b =>
      obtain ⟨hword, hne, hb⟩ := hp
      obtain ⟨v, hv, -⟩ := hword.state hm [b] (Or.inl hne)
      rw [LinePart.text, hv, Transducer.state_cons, scanner_step, step_word_blank hb]
      trivial
  | wordOperator gs o =>
      obtain ⟨hword, ⟨g, hg, hkept⟩, ho⟩ := hp
      obtain ⟨v, hv, hempty⟩ := hword.state hm [chBackslash, o] (Or.inr rfl)
      have hv' : v ≠ [] := fun h => hkept (hempty.1 h g hg)
      rw [LinePart.text, hv, Transducer.state_cons, scanner_step, step_word_backslash,
        Transducer.state_cons, scanner_step, step_wordEsc_operator ho hv']
      exact ho
  | operatorWord gs o c =>
      obtain ⟨hword, hdrop, ho⟩ := hp
      obtain ⟨v, hv, hempty⟩ := hword.state hm [chBackslash, o, c] (Or.inr rfl)
      rw [LinePart.text, hv, hempty.2 hdrop, Transducer.state_cons, scanner_step,
        step_word_backslash, Transducer.state_cons, scanner_step, step_wordEsc_nil_operator ho]
      trivial

theorem state_parts {ps : List LinePart} (hps : ∀ p ∈ ps, p.Valid) (hm : m.Between) :
    (scanner.state m (ps.flatMap LinePart.text)).Between := by
  induction ps generalizing m with
  | nil => exact hm
  | cons p ps ih =>
      obtain ⟨hp, hps⟩ := List.forall_mem_cons.1 hps
      rw [List.flatMap_cons, Transducer.state_append]
      exact ih hps (hp.state hm)

end Scan

/-! ## What is open at the end -/

/-- The text ends in a string between single quotes. -/
def LineRest.inSingle : LineRest → Bool
  | .single _ => true
  | _ => false

/-- The text ends in a string between double quotes. -/
def LineRest.inDouble : LineRest → Bool
  | .double _ _ => true
  | _ => false

theorem Mode.Between.ending {m : Mode} (hm : m.Between) :
    m.singleOpen = false ∧ m.doubleOpen = false := by
  cases m with
  | neutral => exact ⟨rfl, rfl⟩
  | operator o => exact ⟨rfl, rfl⟩
  | _ => cases hm

theorem LineRest.Valid.ending {e : LineRest} (he : e.Valid) {m : Mode} (hm : m.Between) :
    (scanner.state m e.text).singleOpen = e.inSingle ∧
      (scanner.state m e.text).doubleOpen = e.inDouble := by
  cases e with
  | closed => exact hm.ending
  | comment w =>
      rw [LineRest.text, Transducer.state_cons, scanner_step, between_step hm rfl]
      have hcomment := state_comment w
      exact ⟨congrArg Mode.singleOpen hcomment, congrArg Mode.doubleOpen hcomment⟩
  | single w =>
      obtain ⟨v, hv⟩ := state_single he []
      rw [LineRest.text, Transducer.state_cons, scanner_step, between_step hm rfl]
      exact ⟨congrArg Mode.singleOpen hv, congrArg Mode.doubleOpen hv⟩
  | double gs escape =>
      obtain ⟨v, hv⟩ := state_double he []
      have hopen : (m.step chDquote).1 = .double [] := between_step hm rfl
      rw [LineRest.text, List.cons_append, Transducer.state_cons, scanner_step, hopen,
        Transducer.state_append, hv]
      cases escape with
      | false => exact ⟨rfl, rfl⟩
      | true => exact ⟨rfl, rfl⟩
  | word gs escape =>
      obtain ⟨hword, hne⟩ := he
      have hhead : gs ≠ [] ∨ (escapeText escape).head? = some chBackslash :=
        hne.imp_right fun h => by rw [h]; rfl
      obtain ⟨v, hv, -⟩ := hword.state hm _ hhead
      rw [LineRest.text, hv]
      cases escape with
      | false => exact ⟨rfl, rfl⟩
      | true =>
          rw [escapeText, if_pos rfl, Transducer.state_cons, scanner_step, step_word_backslash]
          exact ⟨rfl, rfl⟩
  | operatorWord gs o =>
      obtain ⟨hword, hdrop, ho⟩ := he
      obtain ⟨v, hv, hempty⟩ := hword.state hm [chBackslash, o] (Or.inr rfl)
      rw [LineRest.text, hv, hempty.2 hdrop, Transducer.state_cons, scanner_step,
        step_word_backslash, Transducer.state_cons, scanner_step, step_wordEsc_nil_operator ho]
      exact ⟨rfl, rfl⟩

/-- **The scan ends in the string the text ends in.** -/
theorem Reading.ending {text : List CChar} {ps : List LinePart} {e : LineRest}
    (h : Reading text ps e) :
    (modeAfter text).singleOpen = e.inSingle ∧ (modeAfter text).doubleOpen = e.inDouble := by
  have hparts : (scanner.state .neutral (ps.flatMap LinePart.text)).Between :=
    state_parts h.parts trivial
  rw [modeAfter, h.text, Transducer.state_append]
  exact h.rest.ending hparts

/-! ## Counting double quotes -/

theorem count_escapeText (escape : Bool) : (escapeText escape).count chDquote = 0 := by
  cases escape <;> rfl

theorem ne_dquote_of_isBlank {c : CChar} (h : isBlank c = true) : c ≠ chDquote := by
  rintro rfl
  cases h

theorem ne_dquote_of_isOperator {c : CChar} (h : isOperator c = true) : c ≠ chDquote := by
  rintro rfl
  cases h

/-- A finished part has its delimiters in pairs. -/
theorem LinePart.Valid.even_count {p : LinePart} (hp : p.Valid) :
    Even (p.text.count chDquote) ↔ Even p.held := by
  cases p with
  | gap c =>
      have hc : c ≠ chDquote := hp.elim ne_dquote_of_isBlank ne_dquote_of_isOperator
      simp [LinePart.text, LinePart.held, hc]
  | single w => simp [LinePart.text, LinePart.held]
  | double gs =>
      have hcount : (LinePart.double gs).text.count chDquote = (LinePart.double gs).held + 2 := by
        simp [LinePart.text, LinePart.held]
      rw [hcount, Nat.even_add]
      simp
  | word gs b => simp [LinePart.text, LinePart.held, ne_dquote_of_isBlank hp.2.2]
  | wordOperator gs o => simp [LinePart.text, LinePart.held, ne_dquote_of_isOperator hp.2.2]
  | operatorWord gs o c =>
      have hcount : (LinePart.operatorWord gs o c).text.count chDquote
          = (LinePart.operatorWord gs o c).held := by
        simp [LinePart.text, LinePart.held, List.count_cons, ne_dquote_of_isOperator hp.2.2]
      rw [hcount]

theorem LineRest.Valid.even_count {e : LineRest} (he : e.Valid) :
    Even (e.text.count chDquote) ↔ (Even e.held ↔ e.inDouble = false) := by
  cases e with
  | closed => simp [LineRest.text, LineRest.held, LineRest.inDouble]
  | comment w => simp [LineRest.text, LineRest.held, LineRest.inDouble]
  | single w => simp [LineRest.text, LineRest.held, LineRest.inDouble]
  | double gs escape =>
      have hcount : (LineRest.double gs escape).text.count chDquote
          = (LineRest.double gs escape).held + 1 := by
        simp [LineRest.text, LineRest.held, count_escapeText]
      rw [hcount, Nat.even_add_one]
      simp [LineRest.inDouble]
  | word gs escape => simp [LineRest.text, LineRest.held, LineRest.inDouble, count_escapeText]
  | operatorWord gs o =>
      simp [LineRest.text, LineRest.held, LineRest.inDouble, ne_dquote_of_isOperator he.2.2]

theorem even_count_parts {ps : List LinePart} (hps : ∀ p ∈ ps, p.Valid) :
    Even ((ps.flatMap LinePart.text).count chDquote) ↔ Even (ps.map LinePart.held).sum := by
  induction ps with
  | nil => simp
  | cons p ps ih =>
      obtain ⟨hp, hps⟩ := List.forall_mem_cons.1 hps
      rw [List.flatMap_cons, List.count_append, List.map_cons, List.sum_cons, Nat.even_add,
        Nat.even_add, hp.even_count, ih hps]

/-- **The double quotes of a text**: their number and the number of those that delimit nothing differ in
    parity exactly when the text ends in a string between double quotes. -/
theorem Reading.even_count {text : List CChar} {ps : List LinePart} {e : LineRest}
    (h : Reading text ps e) :
    Even (text.count chDquote) ↔ (Even (held ps e) ↔ e.inDouble = false) := by
  rw [h.text, List.count_append, Nat.even_add, even_count_parts h.parts, h.rest.even_count, held,
    Nat.even_add]
  tauto

end SysProg.Shell
