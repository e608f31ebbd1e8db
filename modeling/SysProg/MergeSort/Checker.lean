import SysProg.MergeSort.OutputText

set_option autoImplicit false

/-! # The scripts around the program (`1/generator.py`, `1/checker.py`)

`generator.py` writes the files to sort, and `checker.py` reads the output. Its error exit is inside a
`try` whose `except` catches `SystemExit` too: the checker goes on after an error, with the same
previous number, and its last line is always the same. Texts are ASCII. -/

namespace SysProg.MergeSort

open Libcoro

/-! ## `generator.py` -/

/-- The text `generator.py` writes for the numbers it draws. -/
def generatedText : List Int → List CChar
  | [] => []
  | [v] => printInt v
  | v :: w :: vs => printInt v ++ chSpace :: generatedText (w :: vs)

/-- The numbers it can draw with `-m max`. -/
def Drawn (max : Int) (vs : List Int) : Prop := ∀ v ∈ vs, 0 ≤ v ∧ v ≤ max

theorem generatedText_intText {vs : List Int} (h : FitInt vs) : IntText (generatedText vs) vs := by
  induction vs using generatedText.induct with
  | case1 => exact .nil (by simp [generatedText])
  | case2 v =>
      obtain ⟨hlo, hhi⟩ := h v (List.mem_cons_self ..)
      have hcons : IntText ([] ++ printInt v ++ []) [v] :=
        .cons (by simp) (printInt_numeral v) hlo hhi (by simp) (.nil (by simp))
      simpa [generatedText] using hcons
  | case3 v w vs ih =>
      obtain ⟨⟨hlo, hhi⟩, hvs⟩ := List.forall_mem_cons.1 h
      have hrest : IntText (chSpace :: generatedText (w :: vs)) (w :: vs) :=
        (ih hvs).space (by decide)
      have hcons : IntText ([] ++ printInt v ++ (chSpace :: generatedText (w :: vs))) (v :: w :: vs) :=
        .cons (by simp) (printInt_numeral v) hlo hhi (by rintro _ ⟨⟩; rfl) hrest
      simpa [generatedText] using hcons

/-- What is drawn is not negative. -/
theorem drawn_nonneg {max : Int} {names : List (List CChar)} {vals : List (List Int)}
    (h : List.Forall₂ (fun _ vs => Drawn max vs) names vals) : ∀ v ∈ vals.flatten, 0 ≤ v := by
  induction h with
  | nil => simp
  | cons hvs _ ih =>
      intro v hv
      rw [List.flatten_cons, List.mem_append] at hv
      exact hv.elim (fun h => (hvs v h).1) (ih v)

/-! ## `checker.py` -/

/-- The ASCII characters that `str.split()` takes for white space. -/
def isPySpace (c : CChar) : Bool := isSpace c || (28 ≤ c && c ≤ 31)

/-- `str.split()`. -/
def pySplit (text : List CChar) : List (List CChar) :=
  (text.splitOnP isPySpace).filter fun word => !word.isEmpty

/-- The digits after a first one, single underscores between digits left out. -/
def pyDigits : Int → List CChar → Option Int
  | v, [] => some v
  | v, c :: rest =>
    if isDigit c then pyDigits (10 * v + (c.toNat - 48)) rest
    else if c = 95 then
      match rest with
      | d :: rest => if isDigit d then pyDigits (10 * v + (d.toNat - 48)) rest else none
      | [] => none
    else none

/-- `int(word)`, or `none` where it raises `ValueError`. Its limit on the number of digits is left
    out. -/
def pyInt (word : List CChar) : Option Int :=
  let negative := word.head? = some 45
  let number := if word.head? = some 45 ∨ word.head? = some 43 then word.tail else word
  match number with
  | c :: rest =>
    if isDigit c then
      (pyDigits (c.toNat - 48) rest).map fun v => if negative then -v else v
    else none
  | [] => none

/-- What the checker prints. -/
inductive Line where
  /-- `Error on numbers {prev} {v}`. -/
  | error (prev v : Int)
  /-- `All is ok`. -/
  | allIsOk
deriving DecidableEq, Repr

/-- The loop of the checker. -/
def checkLoop : Int → List (List CChar) → List Line
  | _, [] => []
  | prev, word :: words =>
    match pyInt word with
    | none => checkLoop prev words
    | some v => if v < prev then .error prev v :: checkLoop prev words else checkLoop v words

/-- `-(1 << 31 - 1)`, where the shift is the last operation but the sign. -/
def firstNumber : Int := -2 ^ (31 - 1)

def checker (data : List CChar) : List Line := checkLoop firstNumber (pySplit data) ++ [.allIsOk]

/-! ## Reading numbers -/

theorem pyDigits_digits {ds : List CChar} (hds : ∀ c ∈ ds, isDigit c = true) (v : Int) :
    pyDigits v ds = some (ds.foldl (fun v c => 10 * v + (c.toNat - 48 : Int)) v) := by
  induction ds generalizing v with
  | nil => rfl
  | cons c ds ih =>
      obtain ⟨hc, hds⟩ := List.forall_mem_cons.1 hds
      rw [pyDigits.eq_def]
      simp only [hc, if_true, ih hds, List.foldl_cons]

/-- What `%d` prints, `int` reads. -/
theorem pyInt_numeral {num : List CChar} {v : Int} (h : Numeral num v) : pyInt num = some v := by
  have hread : ∀ {ds : List CChar}, ds ≠ [] → (∀ c ∈ ds, isDigit c = true) →
      ∃ c rest, ds = c :: rest ∧ isDigit c = true ∧ pyDigits (c.toNat - 48) rest
        = some (decimal ds) := by
    intro ds hne hds
    obtain ⟨c, rest, rfl⟩ := List.exists_cons_of_ne_nil hne
    obtain ⟨hc, hrest⟩ := List.forall_mem_cons.1 hds
    exact ⟨c, rest, rfl, hc, by rw [pyDigits_digits hrest, decimal, List.foldl_cons]; simp⟩
  cases h with
  | plain hne hds =>
      obtain ⟨c, rest, rfl, hc, hval⟩ := hread hne hds
      obtain ⟨hminus, hplus⟩ := digit_not_sign hc
      simp [pyInt, hminus, hplus, hc, hval]
  | plus hne hds =>
      obtain ⟨c, rest, rfl, hc, hval⟩ := hread hne hds
      simp [pyInt, hc, hval]
  | minus hne hds =>
      obtain ⟨c, rest, rfl, hc, hval⟩ := hread hne hds
      simp [pyInt, hc, hval]

/-- No character of a numeral is white space. -/
theorem Numeral.not_pySpace {num : List CChar} {v : Int} (h : Numeral num v) :
    ∀ c ∈ num, isPySpace c = false := by
  have hdigits : ∀ {ds : List CChar}, (∀ c ∈ ds, isDigit c = true) → ∀ c ∈ ds, isPySpace c = false := by
    intro ds hds c hc
    have hdigit := isDigit_iff.1 (hds c hc)
    have hspace := digit_not_space (hds c hc)
    simp only [isPySpace, hspace, Bool.false_or, Bool.and_eq_false_iff, decide_eq_false_iff_not,
      UInt8.le_iff_toNat_le]
    exact Or.inr (show ¬ c.toNat ≤ 31 by omega)
  cases h with
  | plain _ hds => exact hdigits hds
  | plus _ hds => exact List.forall_mem_cons.2 ⟨by decide, hdigits hds⟩
  | minus _ hds => exact List.forall_mem_cons.2 ⟨by decide, hdigits hds⟩

theorem pySplit_outputText (vs : List Int) : pySplit (outputText vs) = vs.map printInt := by
  induction vs with
  | nil => rfl
  | cons v vs ih =>
      have hnum := printInt_numeral v
      have hne : printInt v ≠ [] := List.length_pos_iff.1 hnum.length_pos
      have htext : outputText (v :: vs) = printInt v ++ chSpace :: outputText vs := by
        simp [outputText]
      rw [pySplit, htext, List.splitOnP_append_cons_of_forall_mem hnum.not_pySpace _ (by decide)]
      rw [pySplit] at ih
      rw [List.filter_cons_of_pos (by simpa using hne), ih, List.map_cons]

/-! ## What the checker says of a sorted output -/

/-- The numbers from the first that is not below the previous one are in order. -/
theorem checkLoop_sorted {vs : List Int} {prev : Int} (hasc : vs.Pairwise (· ≤ ·)) :
    checkLoop prev (vs.map printInt) = (vs.filter (· < prev)).map (.error prev) := by
  induction vs generalizing prev with
  | nil => rfl
  | cons v vs ih =>
      obtain ⟨hv, hvs⟩ := List.pairwise_cons.1 hasc
      simp only [List.map_cons, checkLoop, pyInt_numeral (printInt_numeral v), ih hvs]
      by_cases hlt : v < prev
      · simp [hlt]
      · -- no later number is below `v`, so none is below `prev`
        have hnone : ∀ u ≤ v, vs.filter (· < u) = [] := by
          intro u hu
          refine List.filter_eq_nil_iff.2 fun w hw => ?_
          have hle := hv w hw
          simp only [decide_eq_true_eq, not_lt]
          omega
        simp [hlt, hnone v (Int.le_refl v), hnone prev (by omega)]

theorem checker_outputText {vs : List Int} (hasc : vs.Pairwise (· ≤ ·)) :
    checker (outputText vs) = (vs.filter (· < firstNumber)).map (.error firstNumber) ++ [.allIsOk] := by
  rw [checker, pySplit_outputText, checkLoop_sorted hasc]

/-- **The verdict of the checker** on an output of the program: an error for each of the numbers below
    `-2 ^ 30`, in order, and then that all is well. -/
theorem checker_verdict (env : Env) (argv : List (List CChar)) (args : Args)
    (hargs : mainArgs argv = pure args) (hwork : HasWork argv) (vals : List (List Int))
    (hvals : Contents env args.names vals) :
    (∃ s, EndsIn env args s) ∧ ∀ s, EndsIn env args s → checker (outputText s.mem.output)
      = ((sorted vals).filter (· < firstNumber)).map (.error firstNumber) ++ [.allIsOk] := by
  obtain ⟨hends, hout⟩ := endsIn_output hargs hwork hvals
  refine ⟨hends, fun s hs => ?_⟩
  rw [hout s hs]
  exact checker_outputText (List.pairwise_mergeSort' (· ≤ ·) _)

/-- The file `f` with the text `2 1`. -/
theorem checker_verdict_oneFile :
    (∃ s, EndsIn oneFile ⟨1, 6, [ascii ['f']]⟩ s) ∧ ∀ s, EndsIn oneFile ⟨1, 6, [ascii ['f']]⟩ s →
      checker (outputText s.mem.output)
        = ((sorted [[2, 1]]).filter (· < firstNumber)).map (.error firstNumber) ++ [.allIsOk] :=
  checker_verdict oneFile [ascii ['s'], ascii ['f']] _ rfl hasWork_oneFile _ oneFile_contents

/-- **Generated files pass**: from files that `generator.py` has written, with at least one and fewer
    than `2 ^ 30` numbers in each and none above the largest `int`, the program makes an output in
    which the checker finds no error. -/
theorem generated_checked (env : Env) (argv : List (List CChar)) (args : Args)
    (hargs : mainArgs argv = pure args) (hwork : HasWork argv) (max : Int) (hmax : max < 2 ^ 31)
    (vals : List (List Int))
    (hgen : List.Forall₂ (fun name vs => env.content name = some (generatedText vs) ∧
      Drawn max vs ∧ vs ≠ [] ∧ vs.length < 2 ^ 30) args.names vals) :
    (∃ s, EndsIn env args s) ∧
      ∀ s, EndsIn env args s → checker (outputText s.mem.output) = [.allIsOk] := by
  have hdrawn : ∀ vs, Drawn max vs → FitInt vs := by
    intro vs hvs v hv
    obtain ⟨hlo, hhi⟩ := hvs v hv
    omega
  have hvals : Contents env args.names vals := by
    refine hgen.imp ?_
    rintro name vs ⟨hfile, hvs, hne, hsmall⟩
    exact ⟨_, hfile, generatedText_intText (hdrawn vs hvs), hne, hsmall⟩
  have hnonneg := drawn_nonneg (hgen.imp fun _ _ hfile => hfile.2.1)
  obtain ⟨hends, hout⟩ := endsIn_output hargs hwork hvals
  refine ⟨hends, fun s hs => ?_⟩
  have hasc : (sorted vals).Pairwise (· ≤ ·) := List.pairwise_mergeSort' (· ≤ ·) _
  have hnone : (sorted vals).filter (· < firstNumber) = [] := by
    refine List.filter_eq_nil_iff.2 fun v hv => ?_
    have hpos := hnonneg v ((List.mergeSort_perm _ _).subset hv)
    have hfirst : firstNumber < 0 := by decide
    rw [decide_eq_true_iff]
    omega
  rw [hout s hs, checker_outputText hasc, hnone]
  rfl

/-- The file `f` with the text `2 1`, as drawn from the numbers up to 9. -/
theorem generated_checked_oneFile :
    (∃ s, EndsIn oneFile ⟨1, 6, [ascii ['f']]⟩ s) ∧ ∀ s, EndsIn oneFile ⟨1, 6, [ascii ['f']]⟩ s →
      checker (outputText s.mem.output) = [.allIsOk] :=
  generated_checked oneFile [ascii ['s'], ascii ['f']] _ rfl hasWork_oneFile 9 (by decide) [[2, 1]]
    (.cons ⟨rfl, by simp [Drawn], by decide, by decide⟩ .nil)

end SysProg.MergeSort
