import SysProg.Shell.ReadLine
import SysProg.Shell.LineParts

set_option autoImplicit false

/-! # Where a line ends

`read_line` decides at each newline with one flag that every double quote toggles; `parse_line`
toggles nothing at a double quote that is escaped, in single quotes, inside a word or in a comment.
Whether the two agree on a stream is a matter of how its first line is cut into parts at each newline
(`LineEndsClear`). -/

namespace SysProg.Shell

/-! ## The two readers at a newline -/

/-- The states of `read_line` at the head of its loop, on the stream `stdin`. -/
inductive ReadReaches (stdin : List CChar) : ReadState → Prop where
  | init : ReadReaches stdin (readInit stdin)
  | step {s s' : ReadState} {live live' : Int} (h : ReadReaches stdin s)
      (hrun : (readStep s).run live = pure ((s', .next), live')) : ReadReaches stdin s'

/-- A newline after `pre` is a continuation: an odd number of backslashes precedes it. -/
def Continuation (pre : List CChar) : Prop :=
  ¬ Even (pre.reverse.takeWhile (· == chBackslash)).length

instance (pre : List CChar) : Decidable (Continuation pre) := inferInstanceAs (Decidable (¬ _))

/-- At a newline after `pre`: where `read_line` stops, the scan of the text collected so far has no
    quote open, and where it reads past the newline and this is no continuation, it has one open. -/
def LineEndAgrees (pre : List CChar) (s : ReadState) : Prop :=
  ∃ st, scanLine s.rawLine = pure st ∧
    ∀ live s' flow live', (readStep s).run live = pure ((s', flow), live') →
      (flow = .brk → st.singleQuote = false ∧ st.doubleQuote = false) ∧
      (flow = .next → ¬ Continuation pre → st.singleQuote = true ∨ st.doubleQuote = true)

/-- `read_line` reads its line without an overflow, and the readers agree at every newline it comes
    to. -/
structure LineEndsAgree (stdin : List CChar) : Prop where
  defined : ∀ s live, ReadReaches stdin s → ∃ r, (readStep s).run live = pure r
  agrees : ∀ pre rest s, stdin = pre ++ chNewline :: rest → ReadReaches stdin s →
    s.stdin = chNewline :: rest → LineEndAgrees pre s

/-! ## The first line of a stream -/

/-- A newline after `pre` is part of the line: an odd number of double quotes is before it, or a
    backslash directly before it. -/
def Carries (pre : List CChar) : Prop :=
  ¬ Even (pre.count chDquote) ∨ pre.getLast? = some chBackslash

instance (pre : List CChar) : Decidable (Carries pre) := inferInstanceAs (Decidable (_ ∨ _))

/-- The line is not over within `pre`. -/
def OneLine (pre : List CChar) : Prop := ∀ a b, pre = a ++ chNewline :: b → Carries a

/-- The newline that is left out of the text: after a backslash, with an even number of double quotes
    before it. -/
def LeftOut (pre : List CChar) (c : CChar) : Prop :=
  c = chNewline ∧ Even (pre.count chDquote) ∧ pre.getLast? = some chBackslash

instance (pre : List CChar) (c : CChar) : Decidable (LeftOut pre c) :=
  inferInstanceAs (Decidable (_ ∧ _))

/-- The text of the bytes `xs` that are behind `pre`. -/
def joinedFrom (pre : List CChar) : List CChar → List CChar
  | [] => []
  | c :: xs => (if LeftOut pre c then [] else [c]) ++ joinedFrom (pre ++ [c]) xs

/-- The text of the beginning of a line. -/
def joined (pre : List CChar) : List CChar := joinedFrom [] pre

/-- At a newline after `pre`: the text before it, cut into parts, holds an even number of double quotes
    and is in no string between single quotes, where the newline ends the line; where it does not, the
    newline is a continuation or in such a string, or the number held is even just when the number of
    all double quotes is odd. -/
def LineEndClear (pre : List CChar) : Prop :=
  ∃ ps e, Reading (joined pre) ps e ∧
    if Carries pre then
      Continuation pre ∨ (∃ w, e = .single w) ∨ (Even (held ps e) ↔ ¬ Even (pre.count chDquote))
    else (∀ w, e ≠ .single w) ∧ Even (held ps e)

/-- The condition under which the readers agree on a stream: its first line fits, and all the newlines
    up to the one that ends it are clear. -/
structure LineEndsClear (stdin : List CChar) : Prop where
  short : ∀ pre rest, stdin = pre ++ rest → OneLine pre → (joined pre).length < lineLimit
  clear : ∀ pre rest, stdin = pre ++ chNewline :: rest → OneLine pre → LineEndClear pre

theorem joinedFrom_append (pre xs ys : List CChar) :
    joinedFrom pre (xs ++ ys) = joinedFrom pre xs ++ joinedFrom (pre ++ xs) ys := by
  induction xs generalizing pre with
  | nil => rw [List.nil_append, List.append_nil]; rfl
  | cons c xs ih =>
      rw [List.cons_append, joinedFrom, joinedFrom, ih, List.append_assoc, List.append_assoc,
        List.singleton_append]

theorem joined_snoc (pre : List CChar) (c : CChar) :
    joined (pre ++ [c]) = joined pre ++ if LeftOut pre c then [] else [c] := by
  rw [joined, joinedFrom_append]
  simp [joined, joinedFrom]

/-- Only newlines are left out. -/
theorem count_joined (pre : List CChar) : (joined pre).count chDquote = pre.count chDquote := by
  induction pre using List.reverseRecOn with
  | nil => rfl
  | append_singleton pre c ih =>
      rw [joined_snoc, List.count_append, List.count_append, ih]
      split
      · next hout =>
          rw [hout.1]
          rfl
      · rfl

theorem joined_subset {pre : List CChar} {c : CChar} (h : c ∈ joined pre) : c ∈ pre := by
  induction pre using List.reverseRecOn with
  | nil => cases h
  | append_singleton pre d ih =>
      rw [joined_snoc] at h
      rcases List.mem_append.1 h with hmem | hmem
      · exact List.mem_append_left _ (ih hmem)
      · split at hmem
        · cases hmem
        · exact List.mem_append_right _ hmem

theorem oneLine_snoc {pre : List CChar} {c : CChar} :
    OneLine (pre ++ [c]) ↔ OneLine pre ∧ (c = chNewline → Carries pre) := by
  constructor
  · intro h
    refine ⟨fun a b hab => h a (b ++ [c]) (by rw [hab]; simp), ?_⟩
    rintro rfl
    exact h pre [] rfl
  · rintro ⟨h, hc⟩ a b hab
    rcases List.eq_nil_or_concat b with rfl | ⟨b, d, rfl⟩
    · obtain ⟨rfl, hd⟩ := List.append_inj' hab rfl
      exact hc (List.singleton_inj.1 hd)
    · have hab' : pre ++ [c] = (a ++ chNewline :: b) ++ [d] := by rw [hab]; simp
      exact h a b (List.append_inj' hab' rfl).1

/-! ## What `read_line` keeps -/

/-- `read_line` at the head of its loop when it has read `pre`. -/
structure HeadAt (pre : List CChar) (s : ReadState) : Prop where
  grown : s.Grown
  short : (joined pre).length < lineLimit
  text : s.rawLine = joined pre
  /-- The flag counts double quotes. -/
  quote : s.doubleQuote = false ↔ Even (pre.count chDquote)
  prev : s.prev = chBackslash ↔ pre.getLast? = some chBackslash

theorem headAt_init (stdin : List CChar) : HeadAt [] (readInit stdin) :=
  ⟨⟨rfl, rfl⟩, by decide, rfl, by simp [readInit], by simp [readInit]⟩

section Head

variable {pre cs : List CChar} {c : CChar} {s s' : ReadState} {live live' : Int} {flow : Flow}

theorem HeadAt.carries_iff (h : HeadAt pre s) :
    ¬ Carries pre ↔ s.doubleQuote = false ∧ s.prev ≠ chBackslash := by
  rw [Carries, not_or, not_not, h.quote, Ne, h.prev]

theorem HeadAt.leftOut_iff (h : HeadAt pre s) :
    LeftOut pre c ↔ c = chNewline ∧ s.doubleQuote = false ∧ s.prev = chBackslash := by
  rw [LeftOut, h.quote, h.prev]

/-- What `read_line` does with a character that is not taken for the end of the input. -/
theorem HeadAt.readAct_eq (h : HeadAt pre s) (heof : isEof c = false) :
    readAct s.doubleQuote s.prev c
      = if c = chNewline ∧ ¬ Carries pre then .stop else if LeftOut pre c then .skip
        else .store (s.doubleQuote ^^ decide (c = chDquote)) := by
  simp only [h.carries_iff, h.leftOut_iff, readAct]
  by_cases hd : c = chDquote
  · subst hd
    simp
  · by_cases hn : c = chNewline
    · subst hn
      by_cases hp : s.prev = chBackslash <;> cases s.doubleQuote <;> simp [hp, isEof_iff]
    · simp [hd, hn, heof]

theorem HeadAt.stored (h : HeadAt pre s) (hout : ¬ LeftOut pre c)
    (hshort : (joined (pre ++ [c])).length < lineLimit) :
    HeadAt (pre ++ [c]) (s.stored (s.doubleQuote ^^ decide (c = chDquote)) c cs) := by
  refine ⟨stored_grown h.grown _ c cs, hshort, ?_, ?_, ?_⟩
  · rw [joined_snoc, if_neg hout, ReadState.stored, h.text]
  · rw [ReadState.stored, List.count_append]
    have hquote := h.quote
    by_cases hd : c = chDquote
    · subst hd
      rw [List.count_singleton_self, Nat.even_add_one, ← hquote]
      simp
    · simpa [hd, List.count_singleton] using hquote
  · simp [ReadState.stored]

theorem HeadAt.skipped (h : HeadAt pre s) (hout : LeftOut pre c) :
    HeadAt (pre ++ [c]) { s with stdin := cs, prev := chS } := by
  have htext : joined (pre ++ [c]) = joined pre := by
    rw [joined_snoc, if_pos hout, List.append_nil]
  refine ⟨⟨h.grown.index, h.grown.size⟩, by rw [htext]; exact h.short, h.text.trans htext.symm, ?_,
    ?_⟩
  · rw [hout.1, List.count_append]
    exact h.quote
  · rw [hout.1]
    simp

/-- **An iteration of `read_line`**: it ends at the newline that ends the line, and otherwise reads on,
    unless the text gets too long. -/
theorem HeadAt.step (h : HeadAt pre s) (hstdin : s.stdin = c :: cs) (heof : isEof c = false)
    (live : Int) :
    if c = chNewline ∧ ¬ Carries pre then
      (readStep s).run live = pure (({ s with stdin := cs }, .brk), live)
    else if (joined (pre ++ [c])).length < lineLimit then
      ∃ s', (readStep s).run live = pure ((s', .next), live) ∧ HeadAt (pre ++ [c]) s' ∧ s'.stdin = cs
    else (readStep s).run live = throw .undefined := by
  rw [readStep_cons hstdin h.grown live, h.readAct_eq heof]
  by_cases hstop : c = chNewline ∧ ¬ Carries pre
  · simp only [if_pos hstop]
  simp only [if_neg hstop]
  by_cases hout : LeftOut pre c
  · have hnext : HeadAt (pre ++ [c]) { s with stdin := cs, prev := chS } := h.skipped hout
    simp only [if_pos hout, if_pos hnext.short]
    exact ⟨_, rfl, hnext, rfl⟩
  · have hlen : (joined (pre ++ [c])).length = s.rawLine.length + 1 := by
      rw [joined_snoc, if_neg hout, h.text, List.length_append, List.length_singleton]
    simp only [if_neg hout, ← hlen]
    split
    · next hshort => exact ⟨_, rfl, h.stored hout hshort, rfl⟩
    · rfl

end Head

section Reaches

variable {stdin : List CChar}

/-- Every head of the loop is one behind a beginning of the line. -/
theorem ReadReaches.headAt (htext : ∀ c ∈ stdin, isEof c = false) {s : ReadState}
    (h : ReadReaches stdin s) :
    ∃ pre, stdin = pre ++ s.stdin ∧ OneLine pre ∧ HeadAt pre s := by
  induction h with
  | init => exact ⟨[], rfl, fun a b hab => by simp at hab, headAt_init stdin⟩
  | @step s s' live live' h hrun ih =>
      obtain ⟨pre, hsplit, hone, hhead⟩ := ih
      cases hin : s.stdin with
      | nil =>
          rw [readStep_nil hin, pure_inj] at hrun
          simp at hrun
      | cons c cs =>
          have heof : isEof c = false := htext c (by rw [hsplit, hin]; simp)
          have hstep := hhead.step hin heof live
          split at hstep
          · rw [hstep, pure_inj] at hrun
            simp at hrun
          · next hgo =>
              split at hstep
              · obtain ⟨s'', hrun', hhead', hleft⟩ := hstep
                rw [hrun', pure_inj] at hrun
                simp only [Prod.mk.injEq, and_true] at hrun
                obtain ⟨rfl, -⟩ := hrun
                refine ⟨pre ++ [c], by rw [hsplit, hin, hleft]; simp, ?_, hhead'⟩
                refine oneLine_snoc.2 ⟨hone, fun hn => ?_⟩
                by_contra hc
                exact hgo ⟨hn, hc⟩
              · rw [hstep] at hrun
                cases hrun

/-- It comes to the head behind every beginning of the line that is short enough. -/
theorem exists_readReaches (htext : ∀ c ∈ stdin, isEof c = false) {pre rest : List CChar}
    (hsplit : stdin = pre ++ rest) (hone : OneLine pre) (hshort : (joined pre).length < lineLimit) :
    ∃ s, ReadReaches stdin s ∧ HeadAt pre s ∧ s.stdin = rest := by
  induction pre using List.reverseRecOn generalizing rest with
  | nil => exact ⟨_, .init, headAt_init stdin, hsplit⟩
  | append_singleton pre c ih =>
      obtain ⟨hpre, hc⟩ := oneLine_snoc.1 hone
      have hless : (joined pre).length < lineLimit := by
        rw [joined_snoc, List.length_append] at hshort
        omega
      have hsplit' : stdin = pre ++ c :: rest := by rw [hsplit]; simp
      obtain ⟨s, hs, hhead, hleft⟩ := ih hsplit' hpre hless
      have heof : isEof c = false := htext c (by rw [hsplit]; simp)
      have hstep := hhead.step hleft heof 0
      rw [if_neg (fun h => h.2 (hc h.1)), if_pos hshort] at hstep
      obtain ⟨s', hrun, hhead', hleft'⟩ := hstep
      exact ⟨s', hs.step hrun, hhead', hleft'⟩

/-- It reads on without an overflow exactly when its line is short enough. -/
theorem readsOn_iff (htext : ∀ c ∈ stdin, isEof c = false) :
    (∀ s live, ReadReaches stdin s → ∃ r, (readStep s).run live = pure r) ↔
      ∀ pre rest, stdin = pre ++ rest → OneLine pre → (joined pre).length < lineLimit := by
  constructor
  · intro hdef pre
    induction pre using List.reverseRecOn with
    | nil => exact fun _ _ _ => (headAt_init stdin).short
    | append_singleton pre c ih =>
        intro rest hsplit hone
        obtain ⟨hpre, hc⟩ := oneLine_snoc.1 hone
        have hsplit' : stdin = pre ++ c :: rest := by rw [hsplit]; simp
        obtain ⟨s, hs, hhead, hleft⟩ :=
          exists_readReaches htext hsplit' hpre (ih (c :: rest) hsplit' hpre)
        have heof : isEof c = false := htext c (by rw [hsplit]; simp)
        have hstep := hhead.step hleft heof 0
        rw [if_neg (fun h => h.2 (hc h.1))] at hstep
        by_contra hlong
        rw [if_neg hlong] at hstep
        obtain ⟨r, hr⟩ := hdef s 0 hs
        exact throw_ne_pure _ _ (hstep.symm.trans hr)
  · intro hshort s live hs
    obtain ⟨pre, hsplit, hone, hhead⟩ := hs.headAt htext
    cases hin : s.stdin with
    | nil => exact ⟨_, readStep_nil hin live⟩
    | cons c cs =>
        have heof : isEof c = false := htext c (by rw [hsplit, hin]; simp)
        have hstep := hhead.step hin heof live
        split at hstep
        · exact ⟨_, hstep⟩
        · next hgo =>
            have hone' : OneLine (pre ++ [c]) :=
              oneLine_snoc.2 ⟨hone, fun hn => by_contra fun hc => hgo ⟨hn, hc⟩⟩
            rw [if_pos (hshort _ cs (by rw [hsplit, hin]; simp) hone')] at hstep
            obtain ⟨s', hrun, -, -⟩ := hstep
            exact ⟨_, hrun⟩

end Reaches

/-! ## When they agree -/

/-- The scan of a text ends in a string exactly as the text does. -/
theorem scanLine_reading {text : List CChar} {ps : List LinePart} {e : LineRest}
    (h : Reading text ps e) (hnul : NulFree text) :
    ∃ st, scanLine text = pure st ∧ (st.singleQuote = true ↔ ∃ w, e = .single w) ∧
      (st.doubleQuote = true ↔ (Even (held ps e) ↔ ¬ Even (text.count chDquote))) := by
  obtain ⟨st, hscan, hend⟩ := scanLine_run hnul
  simp only [Mode.ending, Prod.mk.injEq] at hend
  obtain ⟨hsingle, hdouble, -⟩ := hend
  obtain ⟨hsingle', hdouble'⟩ := h.ending
  have hs : st.singleQuote = e.inSingle := hsingle.symm.trans hsingle'
  have hd : st.doubleQuote = e.inDouble := hdouble.symm.trans hdouble'
  refine ⟨st, hscan, ?_, ?_⟩
  · rw [hs]
    cases e <;> simp [LineRest.inSingle]
  · rw [hd, h.even_count]
    cases e.inDouble with
    | true => simp only [Bool.true_eq_false, iff_false, not_not]
    | false => simp only [Bool.false_eq_true, iff_true, iff_not_self]

/-- The scan of the text of a beginning of the line, whatever parts it is cut into. -/
theorem exists_scanLine {pre : List CChar} (hnul : NulFree pre) :
    ∃ st, scanLine (joined pre) = pure st ∧ ∀ ps e, Reading (joined pre) ps e →
      (st.singleQuote = true ↔ ∃ w, e = .single w) ∧
      (st.doubleQuote = true ↔ (Even (held ps e) ↔ ¬ Even (pre.count chDquote))) := by
  have hjoined : NulFree (joined pre) := fun c hc => hnul c (joined_subset hc)
  obtain ⟨ps, e, h⟩ := exists_reading (joined pre)
  obtain ⟨st, hscan, -⟩ := scanLine_reading h hjoined
  refine ⟨st, hscan, fun ps e h => ?_⟩
  obtain ⟨st', hscan', hend⟩ := scanLine_reading h hjoined
  rw [hscan, pure_inj] at hscan'
  rwa [← hscan', count_joined] at hend

/-- Whether a newline ends the line depends on the bytes before it only. -/
theorem HeadAt.newline {pre rest : List CChar} {s : ReadState} (hs : HeadAt pre s)
    (hin : s.stdin = chNewline :: rest)
    (hshort : Carries pre → (joined (pre ++ [chNewline])).length < lineLimit) (live : Int) :
    ∃ s', (readStep s).run live = pure ((s', if Carries pre then .next else .brk), live) := by
  have hstep := hs.step hin (by decide) live
  by_cases hc : Carries pre
  · rw [if_neg (fun h => h.2 hc), if_pos (hshort hc)] at hstep
    obtain ⟨s', hrun, -, -⟩ := hstep
    exact ⟨s', by rw [if_pos hc]; exact hrun⟩
  · rw [if_pos ⟨rfl, hc⟩] at hstep
    exact ⟨_, by rw [if_neg hc]; exact hstep⟩

/-- At one newline the two readers agree exactly when it is clear. -/
theorem lineEndAgrees_iff {pre rest : List CChar} {s : ReadState} (hs : HeadAt pre s)
    (hnul : NulFree pre) (hin : s.stdin = chNewline :: rest)
    (hshort : Carries pre → (joined (pre ++ [chNewline])).length < lineLimit) :
    LineEndAgrees pre s ↔ LineEndClear pre := by
  have hstep := hs.newline hin hshort
  obtain ⟨st, hscan, hclosed⟩ := exists_scanLine hnul
  unfold LineEndAgrees LineEndClear
  rw [hs.text]
  constructor
  · rintro ⟨st', hscan', hagree⟩
    obtain rfl : st = st' := (pure_inj st st').1 (hscan.symm.trans hscan')
    obtain ⟨ps, e, h⟩ := exists_reading (joined pre)
    obtain ⟨hsingle, hdouble⟩ := hclosed ps e h
    obtain ⟨s', hrun⟩ := hstep 0
    obtain ⟨hstop, hpass⟩ := hagree 0 s' _ 0 hrun
    refine ⟨ps, e, h, ?_⟩
    split_ifs at hstop hpass ⊢ with hc
    · by_cases hcont : Continuation pre
      · exact Or.inl hcont
      · exact Or.inr ((hpass rfl hcont).imp hsingle.1 hdouble.1)
    · obtain ⟨h1, h2⟩ := hstop rfl
      have heven : Even (pre.count chDquote) := not_not.1 (not_or.1 hc).1
      rw [← Bool.not_eq_true, hsingle] at h1
      rw [← Bool.not_eq_true, hdouble] at h2
      refine ⟨fun w hw => h1 ⟨w, hw⟩, ?_⟩
      tauto
  · rintro ⟨ps, e, h, hclear⟩
    obtain ⟨hsingle, hdouble⟩ := hclosed ps e h
    refine ⟨st, hscan, fun live s' flow live' hrun => ?_⟩
    obtain ⟨s'', hrun'⟩ := hstep live
    rw [hrun', pure_inj] at hrun
    simp only [Prod.mk.injEq] at hrun
    obtain ⟨⟨-, rfl⟩, -⟩ := hrun
    split_ifs at hclear ⊢ with hc
    · refine ⟨fun h => (by cases h), fun _ hcont => ?_⟩
      exact (hclear.resolve_left hcont).imp hsingle.2 hdouble.2
    · obtain ⟨h1, h2⟩ := hclear
      have heven : Even (pre.count chDquote) := not_not.1 (not_or.1 hc).1
      refine ⟨fun _ => ⟨?_, ?_⟩, fun h => (by cases h)⟩
      · rw [← Bool.not_eq_true, hsingle]
        rintro ⟨w, hw⟩
        exact h1 w hw
      · rw [← Bool.not_eq_true, hdouble]
        tauto

end SysProg.Shell
