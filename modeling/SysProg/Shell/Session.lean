import SysProg.Shell.Loop
import SysProg.Shell.Lines

set_option autoImplicit false

/-! # Sessions (`2/solution/solution.c`)

What a run of the shell is as a whole: its input is a list of lines, and the lines are run one after
the other until one of them ends the session. `runLines` says so without buffers, tokens and heap
blocks, and `main` does exactly this. -/

namespace SysProg.Shell

/-! ## The lines of a stream -/

/-- A byte that can only be part of a line: no newline and none that is taken for the end of file. -/
def isText (c : CChar) : Bool := !(c == chNewline || isEof c)

/-- What is read is what is stored, what is left and, between them, bytes that are no text. -/
theorem filter_lineText (quote : Bool) (prev : CChar) (stdin : List CChar) :
    (lineText quote prev stdin).1.filter isText ++ (lineText quote prev stdin).2.filter isText
      = stdin.filter isText := by
  induction stdin generalizing quote prev with
  | nil => rfl
  | cons c stdin ih =>
      rw [lineText]
      cases hact : readAct quote prev c with
      | store quote' =>
          simp only
          by_cases hc : isText c = true
          · rw [List.filter_cons_of_pos hc, List.filter_cons_of_pos hc, List.cons_append, ih]
          · rw [List.filter_cons_of_neg hc, List.filter_cons_of_neg hc, ih]
      | skip =>
          have hc : c = chNewline := by
            unfold readAct at hact
            split_ifs at hact with hd hskip
            exact hskip.2.2
          simp only [hc, ih]
          rfl
      | stop =>
          have hc : isText c = false := by
            unfold readAct at hact
            split_ifs at hact with hd hskip heof hnl
            · simp [isText, heof]
            · simp [isText, hnl.1]
          rw [List.filter_cons_of_neg (by simp [hc])]
          rfl

/-- **No byte is lost, doubled or moved by reading**: but for newlines and the bytes that are taken for
    the end of file, the lines of a stream are the stream. -/
theorem streamLines_text (stdin : List CChar) :
    (streamLines stdin).flatten.filter isText = stdin.filter isText := by
  induction stdin using streamLines.induct with
  | case1 => rw [streamLines]; rfl
  | case2 c stdin ih =>
      rw [streamLines, List.flatten_cons, List.filter_append, ih, filter_lineText]

/-- The lines of a stream are no longer than the stream. -/
theorem length_lineText_fst (quote : Bool) (prev : CChar) (stdin : List CChar) :
    (lineText quote prev stdin).1.length ≤ stdin.length := by
  induction stdin generalizing quote prev with
  | nil => exact Nat.le_refl _
  | cons c stdin ih =>
      rw [lineText]
      cases readAct quote prev c with
      | store quote' => exact Nat.succ_le_succ (ih quote' c)
      | skip => exact Nat.le_succ_of_le (ih quote chS)
      | stop => exact Nat.zero_le _

/-- Behind the end of the input every call of `read_line` returns an empty line. -/
theorem readLines_nil (n : Nat) : ∀ live : Int,
    (readLines n []).run live = pure (List.replicate n [chNul], live + n) := by
  induction n with
  | zero => intro live; simp [readLines]
  | succ n ih =>
      intro live
      have hshort : LineFits [] := by decide
      simp only [readLines, StateT.run_bind, readLine_fits hshort, pure_bind]
      show (readLines n []).run (live + 1) >>= _ = _
      rw [ih, pure_bind, StateT.run_pure, List.replicate_succ]
      push_cast
      rw [add_assoc, add_comm 1 (n : Int)]
      rfl

/-- The successive results of `read_line` on a stream that fits are the lines of the stream, and then
    empty lines. -/
theorem readLines_stream (stdin : List CChar) : ∀ (more : Nat) (live : Int),
    stdin.length < lineLimit →
    (readLines ((streamLines stdin).length + more) stdin).run live
      = pure ((streamLines stdin).map (· ++ [chNul]) ++ List.replicate more [chNul],
          live + (streamLines stdin).length + more) := by
  induction stdin using streamLines.induct with
  | case1 =>
      intro more live _
      rw [streamLines, List.length_nil, Nat.zero_add, readLines_nil]
      simp
  | case2 c stdin ih =>
      intro more live hfit
      have hline := length_lineText_fst false chS (c :: stdin)
      have hrest := length_lineText false chS (c :: stdin)
      rw [List.length_cons] at hfit hline hrest
      have hshort : LineFits (c :: stdin) := by
        rw [LineFits]
        omega
      rw [streamLines, List.length_cons, Nat.add_right_comm, readLines]
      simp only [StateT.run_bind, readLine_fits hshort, pure_bind]
      rw [ih more (live + 1) (by omega), pure_bind, StateT.run_pure, List.map_cons]
      push_cast
      congr 2
      ring

/-- **Reading loses nothing**: on a stream that fits, the buffers that the calls of `read_line` return
    hold, in order, every byte of the stream that is no newline and no end of file, and are then empty.
    A buffer is taken up to its last NUL: bytes behind a NUL of the stream are in it, though no string
    function finds them. -/
theorem readLines_text (stdin : List CChar) (hfit : stdin.length < lineLimit) :
    ∃ lines : List (List CChar), lines.flatten.filter isText = stdin.filter isText ∧
      ∀ (more : Nat) (live : Int), ∃ live', (readLines (lines.length + more) stdin).run live
        = pure (lines.map (· ++ [chNul]) ++ List.replicate more [chNul], live') :=
  ⟨streamLines stdin, streamLines_text stdin,
    fun more live => ⟨_, readLines_stream stdin more live hfit⟩⟩

/-- The stream `"a⏎b"⏎c`: a quoted newline is part of its line. -/
theorem readLines_text_quoted :
    ∃ lines : List (List CChar), lines.flatten.filter isText
        = (ascii ['"', 'a', '\n', 'b', '"', '\n', 'c']).filter isText ∧
      ∀ (more : Nat) (live : Int), ∃ live',
        (readLines (lines.length + more) (ascii ['"', 'a', '\n', 'b', '"', '\n', 'c'])).run live
          = pure (lines.map (· ++ [chNul]) ++ List.replicate more [chNul], live') :=
  readLines_text _ (by decide)

/-! ## Running lines -/

/-- How a session ends. -/
inductive Session where
  /-- By `exit`, after these events. -/
  | exited (tr : List Event)
  /-- By the end of the process, or with undefined behaviour. -/
  | stopped (e : Stop)
  /-- It does not: the input is over, and the shell goes on without any. -/
  | atEnd (tr : List Event)

/-- Running the commands of the lines, one line after the other. -/
def runLines (os : Os) : List Event → List (List CChar) → Session
  | tr, [] => .atEnd tr
  | tr, line :: lines =>
    match lineStatus os tr line with
    | .error e => .stopped e
    | .ok status =>
      if status ≠ 0 then .exited (lineEvents os tr line)
      else runLines os (lineEvents os tr line) lines

/-- What `shell_loop` returns in such a session. -/
def Session.result (live : Int) : Session → C (List Event × Int)
  | .exited tr => pure (tr, live)
  | .stopped e => throw e
  | .atEnd _ => throw .diverge

/-- **The loop of the shell runs the lines of its input**, with the heap in the end as it was. -/
theorem shellLoop_run (os : Os) (hstdin : os.LeavesStdin) (stdin : List CChar) :
    ∀ (tr : List Event) (live : Int) (more : Nat),
    (shellLoop os ((streamLines stdin).length + more) tr stdin).run live
      = (runLines os tr (streamLines stdin)).result live := by
  induction stdin using streamLines.induct with
  | case1 =>
      intro tr live more
      rw [shellLoop_nil os hstdin, streamLines]
      rfl
  | case2 c stdin ih =>
      intro tr live more
      have hfuel : (streamLines (c :: stdin)).length + more
          = ((streamLines (lineText false chS (c :: stdin)).2).length + more) + 1 := by
        rw [streamLines, List.length_cons]
        omega
      rw [hfuel, streamLines, runLines, shellLoop]
      simp only [StateT.run_bind, shellStep_events, hstdin _ _]
      cases hst : lineStatus os tr (lineText false chS (c :: stdin)).1 with
      | error e => rfl
      | ok status =>
          by_cases hzero : status = 0
          · subst hzero
            exact ih _ live more
          · simp only [if_pos hzero]
            show (if status ≠ 0 then pure _ else _ : Alloc (List Event)).run live = _
            rw [if_pos hzero]
            rfl

/-! ## `main` -/

/-- `printf("Number of not freed allocations: %llu\n", ..)`. -/
def leakReport (count : Int) : List CChar :=
  ascii "Number of not freed allocations: ".toList ++
    ascii (Nat.toDigits 10 (count % 2 ^ 64).toNat) ++ [chNewline]

/-- `main`, for at most `fuel` iterations of the loop. The report is about `alloc_count`, which holds the
    blocks of the shell and those of the C library. -/
def main (os : Os) (fuel : Nat) (stdin : List CChar) : C (List Event) := do
  let (tr, live) ← (shellLoop os fuel [] stdin).run 0
  pure (tr ++ [.stdout (leakReport (live + os.libcBlocks tr))])

/-- What `main` returns in a session: there is no block left but those of the C library. -/
def Session.events (os : Os) : Session → C (List Event)
  | .exited tr => pure (tr ++ [.stdout (leakReport (os.libcBlocks tr))])
  | .stopped e => throw e
  | .atEnd _ => throw .diverge

end SysProg.Shell
