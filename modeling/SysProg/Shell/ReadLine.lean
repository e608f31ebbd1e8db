import SysProg.Shell.ScannerRefine

set_option autoImplicit false

/-! # What `read_line` reads

`read_line` decides about each byte from one flag and the previous character (`readAct`). Its loop
ends on every stream, keeps inside its buffer, and returns the text `lineText` describes, if that is
shorter than `lineLimit`: `size`, an `int`, overflows on a longer line. -/

namespace SysProg.Shell

/-! ## The decision about one character -/

/-- What `read_line` does with a character. -/
inductive ReadAct where
  /-- It is stored, and the quote flag becomes `quote`. -/
  | store (quote : Bool)
  /-- It is a newline after a backslash, and is dropped. -/
  | skip
  /-- The line ends before it. -/
  | stop
deriving DecidableEq, Repr

def readAct (quote : Bool) (prev next : CChar) : ReadAct :=
  if next = chDquote then .store (!quote)
  else if quote = false ∧ prev = chBackslash ∧ next = chNewline then .skip
  else if isEof next then .stop
  else if next = chNewline ∧ quote = false then .stop
  else .store quote

/-- A line of this many characters overflows `size`. -/
def lineLimit : Nat := 2 ^ 30 - 64

/-- `index` counts the characters stored, and `size` grows by two for each. -/
structure ReadState.Grown (s : ReadState) : Prop where
  index : s.index = s.rawLine.length
  size : s.size = 128 + 2 * s.rawLine.length

/-- `s` after storing `c` and taking it from `stdin`. -/
def ReadState.stored (s : ReadState) (quote : Bool) (c : CChar) (stdin : List CChar) : ReadState :=
  { s with index := s.index + 1, size := s.size + 2, rawLine := s.rawLine ++ [c], prev := c,
           doubleQuote := quote, stdin := stdin }

theorem stored_grown {s : ReadState} (h : s.Grown) (quote : Bool) (c : CChar)
    (stdin : List CChar) : (s.stored quote c stdin).Grown := by
  obtain ⟨hindex, hsize⟩ := h
  refine ⟨?_, ?_⟩
  · simp only [ReadState.stored, List.length_append, List.length_singleton, hindex]
    push_cast
    ring
  · simp only [ReadState.stored, List.length_append, List.length_singleton, hsize]
    push_cast
    ring

/-- Storing a character is defined when the line still fits. -/
theorem storeChar_run {s : ReadState} (hs : s.Grown) (c : CChar) (live : Int) :
    (storeChar c s).run live = if s.rawLine.length + 1 < lineLimit
      then pure (s.stored s.doubleQuote c s.stdin, live) else throw .undefined := by
  obtain ⟨hindex, hsize⟩ := hs
  have hlimit : lineLimit = 2 ^ 30 - 64 := rfl
  have hgrow : s.index - 1 ≤ s.size := by omega
  have hfit : s.index < s.size + 2 := by omega
  simp only [storeChar, if_pos hgrow]
  split
  · rw [int32_of_range (by omega) (by omega), int32_of_range (by omega) (by omega)]
    simp only [StateT.run_pure, pure_bind, liftM_pure, if_pos hfit]
    rfl
  · have hover : int32 (s.size + 2) = throw .undefined := by
      rw [int32, if_neg (by omega)]
    rw [hover]
    rfl

theorem isEof_eof : isEof (CChar.ofInt EOF) = true := by decide

/-- At the end of the stream the loop ends. -/
theorem readStep_nil {s : ReadState} (hs : s.stdin = []) (live : Int) :
    (readStep s).run live = pure ((s, .brk), live) := by
  have hback : ({ s with stdin := [] } : ReadState) = s := by rw [← hs]
  have h1 : (CChar.ofInt EOF == chDquote) = false := by decide
  have h2 : (CChar.ofInt EOF == chNewline) = false := by decide
  simp only [readStep, hs, getc, h1, h2, isEof_eof, Bool.and_false, Bool.false_eq_true, if_false,
    if_true, StateT.run_pure, hback]

/-- What one iteration does with the next byte. -/
theorem readStep_cons {s : ReadState} {c : CChar} {cs : List CChar} (hs : s.stdin = c :: cs)
    (hgrown : s.Grown) (live : Int) :
    (readStep s).run live = match readAct s.doubleQuote s.prev c with
      | .store quote =>
        if s.rawLine.length + 1 < lineLimit then pure ((s.stored quote c cs, .next), live)
        else throw .undefined
      | .skip => pure (({ s with stdin := cs, prev := chS }, .next), live)
      | .stop => pure (({ s with stdin := cs }, .brk), live) := by
  have hstore : ∀ quote, ((storeChar c { s with stdin := cs, doubleQuote := quote } >>=
      fun s => pure (s, .next)) : Alloc (ReadState × Flow)).run live
      = if s.rawLine.length + 1 < lineLimit then pure ((s.stored quote c cs, .next), live)
        else throw .undefined := by
    intro quote
    rw [StateT.run_bind,
      storeChar_run (s := { s with stdin := cs, doubleQuote := quote }) ⟨hgrown.index, hgrown.size⟩]
    split
    · rfl
    · rfl
  simp only [readStep, hs, getc, CChar.ofInt_toNat]
  by_cases hd : c = chDquote
  · subst hd
    cases hq : s.doubleQuote with
    | true =>
        simpa [readAct] using hstore false
    | false =>
        simpa [readAct] using hstore true
  have hd' : (c == chDquote) = false := by simpa using hd
  have hkeep := hstore s.doubleQuote
  by_cases hskip : s.doubleQuote = false ∧ s.prev = chBackslash ∧ c = chNewline
  · obtain ⟨hq, hprev, rfl⟩ := hskip
    simp [readAct, hq, hprev]
  have hskip' : (!s.doubleQuote && s.prev == chBackslash && c == chNewline) = false := by
    rw [Bool.eq_false_iff]
    intro h
    simp only [Bool.and_eq_true, Bool.not_eq_true', beq_iff_eq] at h
    exact hskip ⟨h.1.1, h.1.2, h.2⟩
  simp only [hd', hskip', Bool.and_false, Bool.false_eq_true, if_false, readAct, if_neg hd,
    if_neg hskip]
  by_cases heof : isEof c = true
  · simp [heof]
  by_cases hstop : c = chNewline ∧ s.doubleQuote = false
  · have hprev : s.prev ≠ chBackslash := fun h => hskip ⟨hstop.2, h, hstop.1⟩
    obtain ⟨rfl, hq⟩ := hstop
    have heol : isEol chNewline s.prev = true := by
      simp only [isEol, bne, Bool.and_eq_true, beq_self_eq_true, Bool.not_eq_true',
        beq_eq_false_iff_ne]
      exact ⟨trivial, hprev⟩
    simp only [heof, heol, hq, Bool.not_false, Bool.and_self, if_true, if_false, and_self,
      Bool.false_eq_true, StateT.run_pure]
  · have heol : (isEol c s.prev && !s.doubleQuote) = false := by
      rw [Bool.eq_false_iff]
      intro h
      simp only [isEol, Bool.and_eq_true, beq_iff_eq, Bool.not_eq_true'] at h
      exact hstop ⟨h.1.1, h.2⟩
    simp only [heof, heol, if_neg hstop, Bool.false_eq_true, if_false]
    exact hkeep

/-! ## The whole line -/

/-- The text `read_line` collects from a stream, and the bytes it leaves. -/
def lineText (quote : Bool) (prev : CChar) : List CChar → List CChar × List CChar
  | [] => ([], [])
  | c :: cs =>
      match readAct quote prev c with
      | .store quote' => (c :: (lineText quote' c cs).1, (lineText quote' c cs).2)
      | .skip => lineText quote chS cs
      | .stop => ([], cs)

/-- The text the loop reads from a state on, and the bytes it leaves. -/
def ReadState.text (s : ReadState) : List CChar × List CChar :=
  lineText s.doubleQuote s.prev s.stdin

/-- The loop collects its text when that fits, and overflows when it does not. -/
def ReadState.Collects (s : ReadState) (live : Int) (x : C (ReadState × Int)) : Prop :=
  (s.rawLine.length + s.text.1.length < lineLimit ∧ ∃ s', x = pure (s', live) ∧ s'.Grown ∧
    s'.rawLine = s.rawLine ++ s.text.1 ∧ s'.stdin = s.text.2) ∨
  (lineLimit ≤ s.rawLine.length + s.text.1.length ∧ x = throw .undefined)

section Collects

variable {s : ReadState} {c : CChar} {cs : List CChar} {live : Int} {x : C (ReadState × Int)}

/-- When there is no text left, the loop collects nothing. -/
theorem collects_end (hs : s.Grown) (hfit : s.rawLine.length < lineLimit) {left : List CChar}
    (htext : s.text = ([], left)) : s.Collects live (pure ({ s with stdin := left }, live)) := by
  refine Or.inl ⟨?_, { s with stdin := left }, rfl, ⟨hs.index, hs.size⟩, ?_, ?_⟩
  · rw [htext]
    exact hfit
  · rw [htext, List.append_nil]
  · rw [htext]

/-- A character stored is one of the text. -/
theorem collects_stored {quote : Bool} (hstdin : s.stdin = c :: cs)
    (hact : readAct s.doubleQuote s.prev c = .store quote)
    (h : (s.stored quote c cs).Collects live x) : s.Collects live x := by
  have htext : s.text = (c :: (s.stored quote c cs).text.1, (s.stored quote c cs).text.2) := by
    simp only [ReadState.text, hstdin, lineText, hact, ReadState.stored]
  have hlen : (s.stored quote c cs).rawLine.length + (s.stored quote c cs).text.1.length
      = s.rawLine.length + s.text.1.length := by
    rw [htext, ReadState.stored, List.length_append, List.length_singleton, List.length_cons]
    omega
  rcases h with ⟨hfit, s', hrun, hs', hline, hleft⟩ | ⟨hlong, hrun⟩
  · refine Or.inl ⟨hlen ▸ hfit, s', hrun, hs', ?_, ?_⟩
    · rw [hline, htext, ReadState.stored, List.append_assoc, List.singleton_append]
    · rw [hleft, htext]
  · exact Or.inr ⟨hlen ▸ hlong, hrun⟩

/-- A newline dropped is not one of the text. -/
theorem collects_skipped (hstdin : s.stdin = c :: cs)
    (hact : readAct s.doubleQuote s.prev c = .skip)
    (h : ({ s with stdin := cs, prev := chS } : ReadState).Collects live x) :
    s.Collects live x := by
  have htext : s.text = ({ s with stdin := cs, prev := chS } : ReadState).text := by
    simp only [ReadState.text, hstdin, lineText, hact]
  unfold ReadState.Collects
  rw [htext]
  exact h

end Collects

/-- The loop collects the text of the state it starts in. -/
theorem readLoop_run (fuel : Nat) : ∀ (s : ReadState) (live : Int), s.stdin.length < fuel →
    s.Grown → s.rawLine.length < lineLimit → s.Collects live ((readLoop fuel s).run live) := by
  induction fuel with
  | zero => intro s live hfuel; omega
  | succ fuel ih =>
      intro s live hfuel hs hfit
      cases hstdin : s.stdin with
      | nil =>
          have hback : ({ s with stdin := [] } : ReadState) = s := by rw [← hstdin]
          have hend : s.Collects live (pure ({ s with stdin := [] }, live)) :=
            collects_end hs hfit (by rw [ReadState.text, hstdin, lineText])
          simp only [readLoop, StateT.run_bind, readStep_nil hstdin, pure_bind]
          rwa [hback] at hend
      | cons c cs =>
          rw [hstdin, List.length_cons] at hfuel
          simp only [readLoop, StateT.run_bind, readStep_cons hstdin hs]
          cases hact : readAct s.doubleQuote s.prev c with
          | store quote =>
              have hgrown := stored_grown hs quote c cs
              have hlen : (s.stored quote c cs).rawLine.length = s.rawLine.length + 1 := by
                rw [ReadState.stored, List.length_append, List.length_singleton]
              refine collects_stored hstdin hact ?_
              simp only
              split
              · next hnext =>
                  exact ih _ live (by simp only [ReadState.stored]; omega) hgrown (by omega)
              · next hnext => exact Or.inr ⟨by omega, rfl⟩
          | skip =>
              refine collects_skipped hstdin hact ?_
              exact ih { s with stdin := cs, prev := chS } live (by simp only; omega)
                ⟨hs.index, hs.size⟩ hfit
          | stop => exact collects_end hs hfit (by rw [ReadState.text, hstdin, lineText, hact])

/-- The next line of `stdin` is short enough for `read_line`. -/
def LineFits (stdin : List CChar) : Prop := (lineText false chS stdin).1.length < lineLimit

instance (stdin : List CChar) : Decidable (LineFits stdin) := inferInstanceAs (Decidable (_ < _))

/-- **`read_line` reads the line text**, when it fits: it ends on every stream, stays inside its buffer
    and leaves one block allocated. -/
theorem readLine_run (stdin : List CChar) (live : Int) :
    (readLine stdin).run live
      = if LineFits stdin then
          pure (((lineText false chS stdin).1 ++ [chNul], (lineText false chS stdin).2), live + 1)
        else throw .undefined := by
  have hinit : (readInit stdin).Grown := ⟨rfl, rfl⟩
  have hlimit : lineLimit = 2 ^ 30 - 64 := rfl
  have htext : (readInit stdin).text = lineText false chS stdin := rfl
  have hempty : (readInit stdin).rawLine = [] := rfl
  have hcollects := readLoop_run (stdin.length + 1) (readInit stdin) (live + 1)
    (Nat.lt_succ_self _) hinit (by rw [hempty, List.length_nil]; omega)
  rw [ReadState.Collects, htext, hempty, List.length_nil, Nat.zero_add, List.nil_append]
    at hcollects
  rcases hcollects with ⟨hfit, s, hrun, ⟨hindex, hsize⟩, hline, hleft⟩ | ⟨hlong, hrun⟩
  · rw [hline] at hindex hsize
    have hint : int32 (s.index + 1) = pure (s.index + 1) := int32_of_range (by omega) (by omega)
    have hroom : s.index < s.size := by omega
    rw [if_pos (show LineFits stdin from hfit)]
    simp only [readLine, StateT.run_bind, malloc_run, pure_bind, hrun, hint, hline, hleft,
      if_pos hroom]
    rfl
  · rw [if_neg (show ¬ LineFits stdin from Nat.not_lt.2 hlong)]
    simp only [readLine, StateT.run_bind, malloc_run, pure_bind, hrun]
    rfl

theorem readLine_fits {stdin : List CChar} (hfit : LineFits stdin) (live : Int) :
    (readLine stdin).run live = pure (((lineText false chS stdin).1 ++ [chNul],
      (lineText false chS stdin).2), live + 1) := by
  rw [readLine_run, if_pos hfit]

theorem readTokens_eq {stdin : List CChar} (hfit : LineFits stdin)
    (h : NulFree (lineText false chS stdin).1) :
    readTokens stdin = pure (tokens (lineText false chS stdin).1) := by
  obtain ⟨p, hrun, htok, hlen⟩ := parseLine_run h [] (0 + 1)
  simp only [readTokens, readLine_fits hfit, pure_bind, hrun, hlen, Int.toNat_natCast, List.take_length,
    htok]

theorem readTokens_long {stdin : List CChar} (h : ¬ LineFits stdin) :
    readTokens stdin = throw .undefined := by
  rw [readTokens, readLine_run, if_neg h]
  rfl

/-! ## Stretches without quotes, newlines and ends -/

/-- Only 0xFF, read back as the end of file, and CTRL-D end the input. -/
theorem isEof_iff (c : CChar) : isEof c = true ↔ c = 255 ∨ c = chEot := by
  have h : c.promote = EOF ↔ c = 255 := by
    constructor
    · intro hp
      have hc : c.toInt8 = (255 : UInt8).toInt8 := Int8.toInt_inj.1 (hp.trans (by decide))
      rw [← UInt8.toUInt8_toInt8 c, hc]
      rfl
    · rintro rfl
      decide
  simp [isEof, h]

/-- A character that neither toggles the quote flag nor ends anything. -/
def Inert (c : CChar) : Prop := c ≠ chDquote ∧ c ≠ chNewline ∧ isEof c = false

theorem readAct_inert {c : CChar} (hc : Inert c) (quote : Bool) (prev : CChar) :
    readAct quote prev c = .store quote := by
  obtain ⟨hd, hn, he⟩ := hc
  simp only [readAct, if_neg hd, hn, he, and_false, false_and, if_false, Bool.false_eq_true]

theorem lineText_inert (quote : Bool) (prev : CChar) (s ys : List CChar)
    (hs : ∀ c ∈ s, Inert c) :
    lineText quote prev (s ++ ys) = (s ++ (lineText quote (s.getLastD prev) ys).1,
      (lineText quote (s.getLastD prev) ys).2) := by
  induction s generalizing prev with
  | nil => rfl
  | cons c s ih =>
      have htail := ih c (fun d hd => hs d (List.mem_cons_of_mem _ hd))
      rw [List.getLastD_cons]
      simp only [List.cons_append, lineText, readAct_inert (hs c (List.mem_cons_self ..)), htail]

end SysProg.Shell
