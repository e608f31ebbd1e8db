import SysProg.Shell.ReadLine

set_option autoImplicit false

/-! # The lines of a stream

On a stream without double quotes, backslashes, NUL and CTRL-D the successive results of `read_line`
should be the stretches between its newlines. They are, but for two things: `getc`'s result is
narrowed to a `char` before it is compared with `EOF`, so that a byte 0xFF ends the line it is in,
and `size`, an `int`, overflows in a line of about `2 ^ 30` bytes. -/

namespace SysProg.Shell

/-- The results of `n` calls of `read_line`. -/
def readLines : Nat → List CChar → Alloc (List (List CChar))
  | 0, _ => pure []
  | n + 1, stdin => do
    let (line, stdin) ← readLine stdin
    let lines ← readLines n stdin
    pure (line :: lines)

/-! ## Segments -/

/-- No double quote, backslash, NUL or CTRL-D. -/
def PlainStream (stdin : List CChar) : Prop :=
  ∀ c ∈ stdin, c ≠ chDquote ∧ c ≠ chBackslash ∧ c ≠ chNul ∧ c ≠ chEot

instance (stdin : List CChar) : Decidable (PlainStream stdin) :=
  inferInstanceAs (Decidable (∀ c ∈ stdin, _))

/-- The stretch of a stream between its newlines with number `i`; empty behind the end. -/
def segment (stdin : List CChar) (i : Nat) : List CChar := (stdin.splitOn chNewline).getD i []

/-- The successive results of `read_line` are the segments of the stream. -/
def ReadsSegments (stdin : List CChar) : Prop :=
  ∀ (n : Nat) (live : Int), (readLines n stdin).run live
    = pure ((List.range n).map fun i => segment stdin i ++ [chNul], live + n)

/-- There is no byte 0xFF, which is taken for the end of the file, and every line fits. -/
structure Clean (stdin : List CChar) : Prop where
  noEof : 255 ∉ stdin
  short : ∀ line ∈ stdin.splitOn chNewline, line.length < lineLimit

theorem clean_nil : Clean [] := by
  refine ⟨List.not_mem_nil, fun line hline => ?_⟩
  rw [List.splitOn_nil, List.mem_singleton] at hline
  rw [hline, List.length_nil, lineLimit]
  omega

/-- The stream is the line `line`, and `rest` is behind its newline. -/
structure FirstLine (stdin line rest : List CChar) : Prop where
  newline : chNewline ∉ line
  stream : (stdin = line ∧ rest = []) ∨ stdin = line ++ chNewline :: rest

theorem exists_firstLine (stdin : List CChar) : ∃ line rest, FirstLine stdin line rest := by
  by_cases hnl : chNewline ∈ stdin
  · obtain ⟨line, rest, hstream, hline⟩ := List.eq_append_cons_of_mem hnl
    exact ⟨line, rest, hline, Or.inr hstream⟩
  · exact ⟨stdin, [], hnl, Or.inl ⟨rfl, rfl⟩⟩

/-- A character that ends a plain line: a newline, or the byte taken for the end of the file. -/
def EndsLine (c : CChar) : Prop := c = chNewline ∨ c = 255

theorem plain_inert {line : List CChar} (hplain : PlainStream line)
    (hends : ∀ c ∈ line, ¬ EndsLine c) : ∀ c ∈ line, Inert c := by
  intro c hc
  obtain ⟨hdq, -, -, heot⟩ := hplain c hc
  refine ⟨hdq, fun hnl => hends c hc (Or.inl hnl), ?_⟩
  rw [Bool.eq_false_iff]
  intro heof
  exact ((isEof_iff c).1 heof).elim (fun hff => hends c hc (Or.inr hff)) heot

/-- A line of plain characters is read up to the first character that ends it. -/
theorem lineText_endsLine {line : List CChar} (hplain : PlainStream line)
    (hends : ∀ c ∈ line, ¬ EndsLine c) {c : CChar} (hc : EndsLine c) (rest : List CChar) :
    lineText false chS (line ++ c :: rest) = (line, rest) := by
  have hprev : line.getLastD chS ≠ chBackslash := by
    rcases List.mem_cons.1 (List.getLastD_mem_cons (l := line) (a := chS)) with hs | hmem
    · rw [hs]
      decide
    · exact (hplain _ hmem).2.1
  have hstop : readAct false (line.getLastD chS) c = .stop := by
    rcases hc with rfl | rfl
    · simp only [readAct, hprev, false_and, and_false, if_false]
      rfl
    · have heof : isEof 255 = true := by decide
      simp [readAct, heof]
  rw [lineText_inert false chS line _ (plain_inert hplain hends), lineText, hstop, List.append_nil]

theorem lineText_noEnd {line : List CChar} (hplain : PlainStream line)
    (hends : ∀ c ∈ line, ¬ EndsLine c) : lineText false chS line = (line, []) := by
  have h := lineText_inert false chS line [] (plain_inert hplain hends)
  rwa [List.append_nil, lineText, List.append_nil] at h

namespace FirstLine

variable {stdin line rest : List CChar}

theorem splitOn_eq (h : FirstLine stdin line rest) :
    (stdin = line ∧ rest = [] ∧ stdin.splitOn chNewline = [line]) ∨
      (stdin = line ++ chNewline :: rest ∧
        stdin.splitOn chNewline = line :: rest.splitOn chNewline) := by
  obtain ⟨hline, ⟨rfl, rfl⟩ | rfl⟩ := h
  · exact Or.inl ⟨rfl, rfl, List.splitOn_eq_singleton hline⟩
  · exact Or.inr ⟨rfl, List.splitOn_append_cons_self_of_not_mem hline rest⟩

theorem segment_zero (h : FirstLine stdin line rest) : segment stdin 0 = line := by
  rcases h.splitOn_eq with ⟨-, -, hsplit⟩ | ⟨-, hsplit⟩
  · rw [segment, hsplit, List.getD_cons_zero]
  · rw [segment, hsplit, List.getD_cons_zero]

theorem segment_succ (h : FirstLine stdin line rest) (i : Nat) :
    segment stdin (i + 1) = segment rest i := by
  rcases h.splitOn_eq with ⟨-, rfl, hsplit⟩ | ⟨-, hsplit⟩
  · rw [segment, segment, hsplit, List.splitOn_nil, List.getD_cons_succ, List.getD_nil]
    cases i with
    | zero => rfl
    | succ i => rfl
  · rw [segment, segment, hsplit, List.getD_cons_succ]

theorem rest_subset (h : FirstLine stdin line rest) {c : CChar} (hc : c ∈ rest) : c ∈ stdin := by
  rcases h.stream with ⟨-, rfl⟩ | rfl
  · cases hc
  · exact List.mem_append_right _ (List.mem_cons_of_mem _ hc)

theorem ends (h : FirstLine stdin line rest) (hff : 255 ∉ line) : ∀ c ∈ line, ¬ EndsLine c := by
  rintro c hc (rfl | rfl)
  · exact h.newline hc
  · exact hff hc

/-- Without 0xFF in it, the first line is what `read_line` reads. -/
theorem lineText_eq (h : FirstLine stdin line rest) (hplain : PlainStream stdin) (hff : 255 ∉ line) :
    lineText false chS stdin = (line, rest) := by
  rcases h.stream with ⟨rfl, rfl⟩ | rfl
  · exact lineText_noEnd hplain (h.ends hff)
  · exact lineText_endsLine (fun c hc => hplain c (List.mem_append_left _ hc)) (h.ends hff)
      (Or.inl rfl) rest

/-- With 0xFF in it, `read_line` reads less. -/
theorem lineText_lt (h : FirstLine stdin line rest) (hplain : PlainStream stdin) (hff : 255 ∈ line) :
    (lineText false chS stdin).1.length < line.length := by
  obtain ⟨pre, post, rfl, hpre⟩ := List.eq_append_cons_of_mem hff
  have hplain' : PlainStream pre := by
    intro c hc
    refine hplain c ?_
    rcases h.stream with ⟨rfl, -⟩ | rfl
    · exact List.mem_append_left _ hc
    · exact List.mem_append_left _ (List.mem_append_left _ hc)
  have hends : ∀ c ∈ pre, ¬ EndsLine c := by
    rintro c hc (rfl | rfl)
    · exact h.newline (List.mem_append_left _ hc)
    · exact hpre hc
  have hread : (lineText false chS stdin).1 = pre := by
    rcases h.stream with ⟨rfl, -⟩ | rfl
    · rw [lineText_endsLine hplain' hends (Or.inr rfl)]
    · rw [List.append_assoc, List.cons_append,
        lineText_endsLine hplain' hends (Or.inr rfl)]
  rw [hread, List.length_append, List.length_cons]
  omega

/-- The results from a first line on. -/
theorem readLines_succ (h : FirstLine stdin line rest) (hplain : PlainStream stdin) (hff : 255 ∉ line)
    (hfit : line.length < lineLimit) (n : Nat) (live : Int) :
    (readLines (n + 1) stdin).run live = (do
      let (lines, live) ← (readLines n rest).run (live + 1)
      pure ((line ++ [chNul]) :: lines, live)) := by
  have hread := h.lineText_eq hplain hff
  have hfits : LineFits stdin := by
    rw [LineFits, hread]
    exact hfit
  simp only [readLines, StateT.run_bind, readLine_fits hfits, hread, pure_bind]
  rfl

theorem segments_succ (h : FirstLine stdin line rest) (n : Nat) :
    ((List.range (n + 1)).map fun i => segment stdin i ++ [chNul])
      = (line ++ [chNul]) :: (List.range n).map fun i => segment rest i ++ [chNul] := by
  rw [List.range_succ_eq_map, List.map_cons, List.map_map, h.segment_zero]
  congr 1
  refine List.map_congr_left fun i _ => ?_
  simp only [Function.comp_apply, h.segment_succ]

/-- All results are right exactly when the first one is, and those behind it are. -/
theorem readsSegments_iff (h : FirstLine stdin line rest) (hplain : PlainStream stdin) :
    ReadsSegments stdin ↔ (255 ∉ line ∧ line.length < lineLimit) ∧ ReadsSegments rest := by
  constructor
  · intro hall
    have hfirst : (lineText false chS stdin).1 = line ∧ line.length < lineLimit := by
      have hone := hall 1 0
      rw [h.segments_succ] at hone
      simp only [readLines, StateT.run_bind, readLine_run] at hone
      by_cases hfits : LineFits stdin
      · simp only [if_pos hfits, pure_bind, StateT.run_pure, pure_inj, Prod.mk.injEq,
          List.range_zero, List.map_nil, List.cons.injEq, List.append_cancel_right_eq,
          and_true] at hone
        have hfit := hfits
        rw [LineFits, hone.1] at hfit
        exact ⟨hone.1, hfit⟩
      · rw [if_neg hfits] at hone
        cases hone
    obtain ⟨hline, hfit⟩ := hfirst
    have hff : 255 ∉ line := by
      intro hmem
      have hlt := h.lineText_lt hplain hmem
      rw [hline] at hlt
      exact absurd hlt (Nat.lt_irrefl _)
    refine ⟨⟨hff, hfit⟩, fun n live => ?_⟩
    have hnext := hall (n + 1) (live - 1)
    rw [h.readLines_succ hplain hff hfit, h.segments_succ, bind_eq_pure] at hnext
    obtain ⟨⟨lines, left⟩, hrun, heq⟩ := hnext
    rw [pure_inj, Prod.mk.injEq, List.cons.injEq] at heq
    obtain ⟨⟨-, rfl⟩, rfl⟩ := heq
    rw [Int.sub_add_cancel] at hrun
    rw [hrun, pure_inj, Prod.mk.injEq]
    exact ⟨rfl, by push_cast; ring⟩
  · rintro ⟨⟨hff, hfit⟩, hrest⟩ n live
    cases n with
    | zero => simp [readLines]
    | succ n =>
        rw [h.readLines_succ hplain hff hfit, h.segments_succ, hrest n (live + 1), pure_bind,
          pure_inj, Prod.mk.injEq]
        exact ⟨rfl, by push_cast; ring⟩

theorem clean_iff (h : FirstLine stdin line rest) :
    Clean stdin ↔ (255 ∉ line ∧ line.length < lineLimit) ∧ Clean rest := by
  rcases h.splitOn_eq with ⟨rfl, rfl, hsplit⟩ | ⟨rfl, hsplit⟩
  · constructor
    · rintro ⟨hff, hshort⟩
      exact ⟨⟨hff, hshort stdin (by rw [hsplit]; exact List.mem_singleton_self _)⟩, clean_nil⟩
    · rintro ⟨⟨hff, hfit⟩, -⟩
      refine ⟨hff, fun line hline => ?_⟩
      rw [hsplit, List.mem_singleton] at hline
      rw [hline]
      exact hfit
  · constructor
    · rintro ⟨hff, hshort⟩
      rw [hsplit, List.forall_mem_cons] at hshort
      simp only [List.mem_append, List.mem_cons, not_or] at hff
      exact ⟨⟨hff.1, hshort.1⟩, hff.2.2, hshort.2⟩
    · rintro ⟨⟨hff, hfit⟩, hffs, hshort⟩
      refine ⟨?_, ?_⟩
      · simp only [List.mem_append, List.mem_cons, not_or]
        exact ⟨hff, by decide, hffs⟩
      · rw [hsplit, List.forall_mem_cons]
        exact ⟨hfit, hshort⟩

/-- What is behind the first line of a stream is shorter than the stream. -/
theorem length_rest (h : FirstLine stdin line rest) (hne : stdin ≠ []) :
    rest.length < stdin.length := by
  rcases h.stream with ⟨-, rfl⟩ | rfl
  · exact List.length_pos_iff.2 hne
  · rw [List.length_append, List.length_cons]
    omega

end FirstLine

/-- At the end of the file every call returns an empty line. -/
theorem readsSegments_nil : ReadsSegments [] := by
  have h : FirstLine [] [] [] := ⟨List.not_mem_nil, Or.inl ⟨rfl, rfl⟩⟩
  have hplain : PlainStream [] := fun c hc => absurd hc List.not_mem_nil
  intro n
  induction n with
  | zero => intro live; simp [readLines]
  | succ n ih =>
      intro live
      rw [h.readLines_succ hplain List.not_mem_nil (clean_nil.short [] (by simp)), h.segments_succ,
        ih (live + 1), pure_bind, pure_inj, Prod.mk.injEq]
      exact ⟨rfl, by push_cast; ring⟩

/-- **Where plain input is split at its newlines**: the results of `read_line` on a plain stream are
    its segments exactly when it has no byte 0xFF and no line overflows `size`. -/
theorem readLine_segments_iff {stdin : List CChar} (hplain : PlainStream stdin) :
    ReadsSegments stdin ↔ Clean stdin := by
  induction hn : stdin.length using Nat.strong_induction_on generalizing stdin with
  | _ n ih =>
      by_cases hne : stdin = []
      · subst hne
        exact iff_of_true readsSegments_nil clean_nil
      · obtain ⟨line, rest, h⟩ := exists_firstLine stdin
        have hrest : PlainStream rest := fun c hc => hplain c (h.rest_subset hc)
        rw [h.readsSegments_iff hplain, h.clean_iff,
          ih rest.length (hn ▸ h.length_rest hne) hrest rfl]

/-- The stream `ls⏎cd`. -/
theorem readLine_segments_two : ReadsSegments (ascii ['l', 's', '\n', 'c', 'd']) := by
  have hplain : PlainStream (ascii ['l', 's', '\n', 'c', 'd']) := by decide
  have hls : FirstLine (ascii ['l', 's', '\n', 'c', 'd']) (ascii ['l', 's']) (ascii ['c', 'd']) :=
    ⟨by decide, Or.inr rfl⟩
  have hcd : FirstLine (ascii ['c', 'd']) (ascii ['c', 'd']) [] := ⟨by decide, Or.inl ⟨rfl, rfl⟩⟩
  refine (readLine_segments_iff hplain).2 (hls.clean_iff.2 ⟨⟨by decide, by decide⟩, ?_⟩)
  exact hcd.clean_iff.2 ⟨⟨by decide, by decide⟩, clean_nil⟩

/-- The line `a`, 0xFF, `b` is read as two. -/
theorem readLine_segments_eof :
    PlainStream [97, 255, 98, chNewline] ∧ ¬ ReadsSegments [97, 255, 98, chNewline] := by
  have hplain : PlainStream [97, 255, 98, chNewline] := by decide
  have hline : FirstLine [97, 255, 98, chNewline] [97, 255, 98] [] :=
    ⟨by decide, Or.inr rfl⟩
  refine ⟨hplain, fun hall => ?_⟩
  exact ((hline.readsSegments_iff hplain).1 hall).1.1 (by decide)

end SysProg.Shell
