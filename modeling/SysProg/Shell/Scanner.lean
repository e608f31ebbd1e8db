import SysProg.Lib.Transducer
import SysProg.Shell.Parser

set_option autoImplicit false

/-! # The scanner as a transducer

What `parse_line` computes, one character at a time: a `Mode` says what the characters read so far
leave pending, `Mode.step` what one more character does and which tokens it completes. The loops of
`parse_line` refine this machine (`SysProg.Shell.ScannerRefine`); everything the development says
about tokens is said about it. -/

namespace SysProg.Shell

def isBlank (c : CChar) : Bool := c == chSpace || c == chTab

/-- The characters that are operators outside quotes. -/
def isOperator (c : CChar) : Bool := c == chPipe || c == chGt || c == chAmp

/-- What is pending after some characters of a line. -/
inductive Mode where
  /-- Between tokens. -/
  | neutral
  /-- One operator character, which a second one would double. -/
  | operator (o : CChar)
  /-- An open single quote, with its content so far. -/
  | single (w : List CChar)
  /-- An open double quote, with its content so far. -/
  | double (w : List CChar)
  /-- An open double quote, just after a backslash. -/
  | doubleEsc (w : List CChar)
  /-- An unquoted word. -/
  | word (w : List CChar)
  /-- An unquoted word, just after a backslash. -/
  | wordEsc (w : List CChar)
  /-- A backslash and an operator character at the start of an unquoted word. -/
  | escOp (o : CChar)
  /-- A comment, up to the end of the line. -/
  | comment
deriving DecidableEq, Repr

/-- The mode a character opens between tokens. -/
def Mode.opened (c : CChar) : Mode :=
  if isBlank c then .neutral
  else if c = chHash then .comment
  else if isOperator c then .operator c
  else if c = chSquote then .single []
  else if c = chDquote then .double []
  else if c = chBackslash then .wordEsc []
  else .word [c]

/-- What a backslash and `c` stand for between double quotes. -/
def unescape (c : CChar) : List CChar :=
  if c = chNewline then []
  else if c = chBackslash then [chBackslash]
  else if c = chDquote then [chDquote]
  else if c = chN then [chNewline]
  else if c = chT then [chTab]
  else if c = chR then [chReturn]
  else [chBackslash, c]

/-- One character, and the tokens it completes. -/
def Mode.step : Mode → CChar → Mode × List (List CChar)
  | .neutral, c => (.opened c, [])
  | .operator o, c => if c = o then (.neutral, [[o, o]]) else (.opened c, [[o]])
  | .single w, c => if c = chSquote then (.neutral, [w]) else (.single (w ++ [c]), [])
  | .double w, c =>
      if c = chDquote then (.neutral, [w])
      else if c = chBackslash then (.doubleEsc w, [])
      else (.double (w ++ [c]), [])
  | .doubleEsc w, c => (.double (w ++ unescape c), [])
  | .word w, c =>
      if isBlank c then (.neutral, [w])
      else if c = chBackslash then (.wordEsc w, [])
      else if c = chDquote ∨ c = chSquote then (.word w, [])
      else (.word (w ++ [c]), [])
  | .wordEsc w, c =>
      if c = chBackslash then (.word (w ++ [chBackslash]), [])
      else if isOperator c then
        if w = [] then (.escOp c, []) else (.operator c, [w])
      else if c = chNewline then (.word w, [])
      else (.word (w ++ [c]), [])
  -- the source pushes the character after the operator, not the operator
  | .escOp o, c => (.neutral, [if c = o then [o, o] else [c]])
  | .comment, _ => (.comment, [])

/-- The tokens the end of the line completes; an open quote completes none. -/
def Mode.flush : Mode → List (List CChar)
  | .operator o => [[o]]
  | .word w => [w]
  | .wordEsc w => [w]
  | .escOp _ => [[]]
  | _ => []

def scanner : Transducer Mode CChar (List CChar) := ⟨Mode.step, Mode.flush⟩

@[simp] theorem scanner_step (m : Mode) (c : CChar) : scanner.step m c = m.step c := rfl

@[simp] theorem scanner_flush (m : Mode) : scanner.flush m = m.flush := rfl

/-- The mode at the end of a line. -/
def modeAfter (s : List CChar) : Mode := scanner.state .neutral s

/-- The tokens of a line. -/
def tokens (s : List CChar) : List (List CChar) := scanner.output .neutral s

theorem isOperator_iff {c : CChar} :
    isOperator c = true ↔ c = chPipe ∨ c = chGt ∨ c = chAmp := by
  simp [isOperator, or_assoc]

theorem ne_backslash_of_isOperator {o : CChar} (h : isOperator o = true) : o ≠ chBackslash := by
  rintro rfl
  exact absurd h (by decide)

theorem ne_nul_of_isOperator {o : CChar} (h : isOperator o = true) : o ≠ chNul := by
  rintro rfl
  exact absurd h (by decide)

theorem opened_of_isOperator {o : CChar} (h : isOperator o = true) :
    Mode.opened o = .operator o := by
  rcases isOperator_iff.1 h with rfl | rfl | rfl <;> rfl

theorem opened_of_isBlank {c : CChar} (h : isBlank c = true) : Mode.opened c = .neutral := by
  simp only [Mode.opened, h, if_true]

/-! ## What is open -/

def Mode.singleOpen : Mode → Bool
  | .single _ => true
  | _ => false

def Mode.doubleOpen : Mode → Bool
  | .double _ => true
  | .doubleEsc _ => true
  | _ => false

/-- A single or a double quote is open. -/
def Mode.quoteOpen (m : Mode) : Bool := m.singleOpen || m.doubleOpen

def Mode.inComment : Mode → Bool
  | .comment => true
  | _ => false

/-- What the flags of `parse_line` show of the mode at the end of its loop. -/
def Mode.ending (m : Mode) : Bool × Bool × Bool := (m.singleOpen, m.doubleOpen, m.inComment)

/-! ## Scanning in stretches -/

/-- Reading `xs` from mode `m` is emitting `ts` and then reading `ys` from `m'`. -/
structure Reads (m : Mode) (xs : List CChar) (ts : List (List CChar)) (m' : Mode)
    (ys : List CChar) : Prop where
  output : scanner.output m xs = ts ++ scanner.output m' ys
  ending : (scanner.state m xs).ending = (scanner.state m' ys).ending

theorem Reads.refl (m : Mode) (xs : List CChar) : Reads m xs [] m xs := ⟨rfl, rfl⟩

theorem Reads.trans {m m' m'' : Mode} {xs ys zs : List CChar} {ts us : List (List CChar)}
    (h : Reads m xs ts m' ys) (h' : Reads m' ys us m'' zs) : Reads m xs (ts ++ us) m'' zs :=
  ⟨by rw [h.output, h'.output, List.append_assoc], h.ending.trans h'.ending⟩

theorem Reads.of_step {m m' : Mode} {c : CChar} {ts : List (List CChar)} (xs : List CChar)
    (h : m.step c = (m', ts)) : Reads m (c :: xs) ts m' xs :=
  ⟨by rw [Transducer.output_cons, scanner_step, h],
   by rw [Transducer.state_cons, scanner_step, h]⟩

/-- An operator character is complete once the next character does not double it. -/
theorem reads_operator {o : CChar} {xs : List CChar} (h : xs.head? ≠ some o) :
    Reads (.operator o) xs [[o]] .neutral xs := by
  cases xs with
  | nil => exact ⟨rfl, rfl⟩
  | cons c xs =>
      have hc : c ≠ o := fun he => h (by rw [he]; rfl)
      exact ⟨by simp [Mode.step, if_neg hc], by simp [Mode.step, if_neg hc]⟩

/-- A character that opens an unquoted word is read as by the empty word. -/
theorem reads_neutral_word {c : CChar} (xs : List CChar) (hb : isBlank c = false)
    (hh : c ≠ chHash) (ho : isOperator c = false) (hs : c ≠ chSquote) (hd : c ≠ chDquote) :
    Reads .neutral (c :: xs) [] (.word []) (c :: xs) := by
  have hstep : Mode.step .neutral c = Mode.step (.word []) c := by
    simp only [chHash, chSquote, chDquote] at hh hs hd
    by_cases hbs : c = chBackslash
    · subst hbs; rfl
    · simp only [chBackslash] at hbs
      simp [Mode.step, Mode.opened, hb, hh, ho, hs, hd, hbs]
  exact ⟨by simp [hstep], by simp [hstep]⟩

end SysProg.Shell
