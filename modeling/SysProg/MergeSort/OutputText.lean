import Mathlib.Data.List.Sort
import SysProg.MergeSort.CommandLine

set_option autoImplicit false

/-! # The output file (`1/solution/solution.c`)

`write_result_to_file` prints every number by `fprintf(file, "%d ", min)`. The text is one that
`read_file` reads back, and it is the same for every number of coroutines and every order of the
files: the integers of the files are all it depends on. -/

namespace SysProg.MergeSort

open Libcoro

/-! ## `fprintf` with the format `%d` -/

/-- An `int` as `%d` prints it. -/
def printInt (v : Int) : List CChar :=
  if v < 0 then 45 :: ascii (Nat.toDigits 10 v.natAbs) else ascii (Nat.toDigits 10 v.natAbs)

/-- The content of the output file, for the numbers written to it. -/
def outputText (vs : List Int) : List CChar := vs.flatMap fun v => printInt v ++ [chSpace]

theorem isDigit_toUInt8 {c : Char} (h : c.isDigit = true) :
    isDigit c.toUInt8 = true ∧ c.toUInt8.toNat = c.toNat := by
  have hval : 48 ≤ c.toNat ∧ c.toNat ≤ 57 := by
    simp only [Char.isDigit, Bool.and_eq_true, decide_eq_true_eq, ge_iff_le, UInt32.le_iff_toNat_le]
      at h
    exact h
  have hnat : c.toUInt8.toNat = c.toNat := by
    rw [Char.toUInt8, UInt32.toNat_toUInt8]
    exact Nat.mod_eq_of_lt (show c.toNat < 2 ^ 8 by omega)
  exact ⟨by rw [isDigit_iff, hnat]; exact hval, hnat⟩

theorem isDigit_toDigits (n : Nat) : ∀ c ∈ ascii (Nat.toDigits 10 n), isDigit c = true := by
  intro c hc
  obtain ⟨d, hd, rfl⟩ := List.mem_map.1 hc
  exact (isDigit_toUInt8 (Nat.isDigit_of_mem_toDigits (by decide) (by decide) hd)).1

theorem toDigits_ne_nil (n : Nat) : ascii (Nat.toDigits 10 n) ≠ [] := by
  rw [ascii, ne_eq, List.map_eq_nil_iff]
  exact Nat.toDigits_ne_nil

/-- The value of digits that follow the digits of `init`. -/
theorem decimal_foldl (ds : List Char) (hds : ∀ c ∈ ds, c.isDigit = true) (init : Nat) :
    (ascii ds).foldl (fun v c => 10 * v + (c.toNat - 48 : Int)) (init : Int)
      = (Nat.ofDigitChars 10 ds init : Int) := by
  induction ds generalizing init with
  | nil => simp [ascii]
  | cons c ds ih =>
      obtain ⟨hc, hds⟩ := List.forall_mem_cons.1 hds
      obtain ⟨hdigit, hnat⟩ := isDigit_toUInt8 hc
      rw [isDigit_iff, hnat] at hdigit
      have hstep : (10 * (init : Int) + (c.toUInt8.toNat - 48 : Int))
          = ((10 * init + (c.toNat - '0'.toNat) : Nat) : Int) := by
        rw [hnat, show '0'.toNat = 48 from rfl]
        omega
      rw [Nat.ofDigitChars_cons, ← ih hds, ← hstep]
      rfl

theorem decimal_toDigits (n : Nat) : decimal (ascii (Nat.toDigits 10 n)) = n := by
  have h := decimal_foldl (Nat.toDigits 10 n)
    (fun c hc => Nat.isDigit_of_mem_toDigits (by decide) (by decide) hc) 0
  rw [Nat.ofDigitChars_ten_toDigits] at h
  exact h

/-- What is printed for a number is a numeral of it. -/
theorem printInt_numeral (v : Int) : Numeral (printInt v) v := by
  have hne := toDigits_ne_nil v.natAbs
  have hds := isDigit_toDigits v.natAbs
  have hval := decimal_toDigits v.natAbs
  unfold printInt
  split
  · next hneg =>
      have hv : -decimal (ascii (Nat.toDigits 10 v.natAbs)) = v := by
        rw [hval]
        omega
      have hnum := Numeral.minus hne hds
      rwa [hv] at hnum
  · next hpos =>
      have hv : decimal (ascii (Nat.toDigits 10 v.natAbs)) = v := by
        rw [hval]
        omega
      have hnum := Numeral.plain hne hds
      rwa [hv] at hnum

/-! ## Reading the output back -/

/-- Numbers that are `int`s. -/
def FitInt (vs : List Int) : Prop := ∀ v ∈ vs, -2 ^ 31 ≤ v ∧ v < 2 ^ 31

theorem IntText.fitInt {text : List CChar} {vs : List Int} (h : IntText text vs) : FitInt vs := by
  induction h with
  | nil _ => exact fun _ hv => absurd hv List.not_mem_nil
  | cons _ _ hlo hhi _ _ ih => exact List.forall_mem_cons.2 ⟨⟨hlo, hhi⟩, ih⟩

/-- White space in front of a text. -/
theorem IntText.space {c : CChar} (hc : isSpace c = true) {text : List CChar} {vs : List Int}
    (h : IntText text vs) : IntText (c :: text) vs := by
  cases h with
  | nil hws => exact .nil (List.forall_mem_cons.2 ⟨hc, hws⟩)
  | @cons ws num rest v vs hws hnum hlo hhi hsep hrest =>
      have hcons : IntText ((c :: ws) ++ num ++ rest) (v :: vs) :=
        .cons (List.forall_mem_cons.2 ⟨hc, hws⟩) hnum hlo hhi hsep hrest
      exact hcons

/-- **The output file is a text of the numbers written.** -/
theorem outputText_intText {vs : List Int} (h : FitInt vs) : IntText (outputText vs) vs := by
  induction vs with
  | nil => exact .nil (by simp [outputText])
  | cons v vs ih =>
      obtain ⟨⟨hlo, hhi⟩, hvs⟩ := List.forall_mem_cons.1 h
      have hrest : IntText (chSpace :: outputText vs) vs := (ih hvs).space (by decide)
      have hcons : IntText ([] ++ printInt v ++ (chSpace :: outputText vs)) (v :: vs) :=
        .cons (by simp) (printInt_numeral v) hlo hhi (by rintro _ ⟨⟩; rfl) hrest
      simpa [outputText] using hcons

/-! ## What the program writes -/

/-- The integers of all the files, sorted. -/
def sorted (vals : List (List Int)) : List Int := vals.flatten.mergeSort

theorem eq_sorted {out : List Int} {vals : List (List Int)} (hasc : out.Pairwise (· ≤ ·))
    (hperm : out.Perm vals.flatten) : out = sorted vals := by
  refine (hperm.trans (List.mergeSort_perm _ _).symm).eq_of_pairwise' hasc ?_
  exact List.pairwise_mergeSort' (· ≤ ·) vals.flatten

section Runs

variable {env : Env} {names : List (List CChar)} {vals : List (List Int)} {m : Nat}

/-- A run of the library ends in one state. -/
theorem halted_unique {s t u : State MainState Local Mem}
    (ht : Libcoro.Reaches (program env m) s t) (htp : t.point = .halted)
    (hu : Libcoro.Reaches (program env m) s u) (hup : u.point = .halted) : t = u := by
  -- a state in which the main context has returned has no next one
  have hlast : ∀ {a b : State MainState Local Mem}, a.point = .halted →
      Libcoro.Reaches (program env m) a b → b = a := by
    intro a b ha hab
    rcases Relation.ReflTransGen.cases_head hab with rfl | ⟨c, hgoes, -⟩
    · rfl
    · rw [Run.Goes, Libcoro.step, ha] at hgoes
      cases hgoes
  rcases ht.total hu with h | h
  · exact (hlast htp h).symm
  · exact hlast hup h

/-- The program ends, and in no other state than with the sorted integers as its output. -/
theorem program_output (hnames : names ≠ []) (hvals : Contents env names vals) (hm : 1 ≤ m) :
    (∃ s, Libcoro.Reaches (program env m) (init (.start 0) (tables names)) s ∧ s.point = .halted) ∧
    ∀ s, Libcoro.Reaches (program env m) (init (.start 0) (tables names)) s → s.point = .halted →
      s.mem.output = sorted vals := by
  obtain ⟨a, hreach, hwaited⟩ := reaches_waited hvals.holds hm
  have hne : vals ≠ [] := by
    have hlen := hvals.length_eq
    rintro rfl
    exact hnames (List.length_eq_zero_iff.1 hlen)
  obtain ⟨out, hgoes, hasc, hperm⟩ := hwaited.merges hne hvals.ne_nil m
  obtain ⟨s, hs, hrep, -⟩ := Reaches.of_sched (hreach.tail hgoes)
  refine ⟨⟨s, hs, hrep.point⟩, fun t ht hpoint => ?_⟩
  rw [halted_unique ht hpoint hs hrep.point, ← eq_sorted hasc hperm]
  exact congrArg Mem.output hrep.mem

theorem sorted_ne_nil (hnames : names ≠ []) (hvals : Contents env names vals) : sorted vals ≠ [] := by
  intro hnil
  have hlen : (sorted vals).length = vals.flatten.length := List.length_mergeSort _
  rw [hnil] at hlen
  cases hvals with
  | nil => exact hnames rfl
  | cons hfile _ =>
      obtain ⟨_, -, -, hne, -⟩ := hfile
      have hpos := List.length_pos_iff.2 hne
      rw [List.flatten_cons, List.length_append, List.length_nil] at hlen
      omega

/-- The integers of the files, sorted, are `int`s. -/
theorem sorted_fitInt (hvals : Contents env names vals) : FitInt (sorted vals) := by
  intro v hv
  have hmem : v ∈ vals.flatten := (List.mergeSort_perm _ _).subset hv
  clear hv
  induction hvals with
  | nil => simp at hmem
  | cons hfile _ ih =>
      obtain ⟨text, -, htext, -, -⟩ := hfile
      rw [List.flatten_cons, List.mem_append] at hmem
      exact hmem.elim (htext.fitInt v) ih

end Runs

/-! ## Command lines -/

/-- The program, started with the arguments `args`, ends in `s`. -/
def EndsIn (env : Env) (args : Args) (s : State MainState Local Mem) : Prop :=
  Libcoro.Reaches (program env args.coroParam.toNat) (init (.start 0) (tables args.names)) s ∧
    s.point = .halted

section CommandLines

variable {env : Env} {argv : List (List CChar)} {args : Args} {vals : List (List Int)}

/-- A command line with work to do names a file and asks for a coroutine. -/
theorem HasWork.names_coroParam (hwork : HasWork argv) (hargs : mainArgs argv = pure args) :
    args.names ≠ [] ∧ 1 ≤ args.coroParam.toNat := by
  obtain ⟨hfiles, hcoro⟩ := (hasWork_iff hargs).1 hwork
  have hne : argv ≠ [] := by
    rintro rfl
    have hempty : (pure ⟨-1, coroCount, []⟩ : C Args) = pure args := hargs
    rw [← (pure_inj _ _).1 hempty] at hfiles
    exact absurd hfiles (by decide)
  rw [mainArgs_filesCount hargs hne] at hfiles
  exact ⟨List.length_pos_iff.1 (by omega), by omega⟩

theorem endsIn_output (hargs : mainArgs argv = pure args) (hwork : HasWork argv)
    (hvals : Contents env args.names vals) :
    (∃ s, EndsIn env args s) ∧ ∀ s, EndsIn env args s → s.mem.output = sorted vals := by
  obtain ⟨hnames, hcoro⟩ := hwork.names_coroParam hargs
  obtain ⟨hends, hout⟩ := program_output hnames hvals hcoro
  exact ⟨hends, fun s hs => hout s hs.1 hs.2⟩

/-- The same integers, in files that are given in another order. -/
theorem sorted_perm {vals' : List (List Int)} (h : vals.Perm vals') : sorted vals = sorted vals' :=
  eq_sorted (List.pairwise_mergeSort' (· ≤ ·) _) ((List.mergeSort_perm _ _).trans h.flatten)

end CommandLines

/-- **The output depends on the files only**: two command lines with work to do that give the same
    files, in any order and with any numbers of coroutines, both end, and with the same output. -/
theorem output_independent (env : Env) (argv argv' : List (List CChar)) (args args' : Args)
    (hargs : mainArgs argv = pure args) (hargs' : mainArgs argv' = pure args')
    (hwork : HasWork argv) (hwork' : HasWork argv') (hnames : args'.names.Perm args.names)
    (vals : List (List Int)) (hvals : Contents env args.names vals) :
    ∃ text, (∃ s, EndsIn env args s) ∧ (∃ s, EndsIn env args' s) ∧
      ∀ s, EndsIn env args s ∨ EndsIn env args' s → outputText s.mem.output = text := by
  obtain ⟨vals', hvals', hperm⟩ := List.perm_comp_forall₂ hnames hvals
  obtain ⟨hends, hout⟩ := endsIn_output hargs hwork hvals
  obtain ⟨hends', hout'⟩ := endsIn_output hargs' hwork' hvals'
  refine ⟨outputText (sorted vals), hends, hends', ?_⟩
  rintro s (hs | hs)
  · rw [hout s hs]
  · rw [hout' s hs, sorted_perm hperm]

theorem oneFile_contents : Contents oneFile [ascii ['f']] [[2, 1]] := by
  have htwo : Numeral [50] (decimal [50]) := .plain (by decide) (by decide)
  have hone : Numeral [49] (decimal [49]) := .plain (by decide) (by decide)
  have hlast : IntText ([32] ++ [49] ++ []) [decimal [49]] :=
    .cons (by decide) hone (by decide) (by decide) (by simp) (.nil (by simp))
  have htext : IntText ([] ++ [50] ++ ([32] ++ [49] ++ [])) [decimal [50], decimal [49]] :=
    .cons (by simp) htwo (by decide) (by decide) (by rintro _ ⟨⟩; rfl) hlast
  exact .cons ⟨_, rfl, htext, by decide, by decide⟩ .nil

theorem hasWork_oneFile : HasWork [ascii ['s'], ascii ['f']] := by
  rw [HasWork, if_neg (by decide)]
  decide

/-- The file `f`, once with the coroutines that are started by default and once with two. -/
theorem output_independent_oneFile :
    ∃ text, (∃ s, EndsIn oneFile ⟨1, 6, [ascii ['f']]⟩ s) ∧
      (∃ s, EndsIn oneFile ⟨1, 2, [ascii ['f']]⟩ s) ∧
      ∀ s, EndsIn oneFile ⟨1, 6, [ascii ['f']]⟩ s ∨ EndsIn oneFile ⟨1, 2, [ascii ['f']]⟩ s →
        outputText s.mem.output = text := by
  have hopt : hasOption [ascii ['s'], ascii ['-', 'c'], ascii ['2'], ascii ['f']] = pure true := rfl
  refine output_independent oneFile [ascii ['s'], ascii ['f']]
    [ascii ['s'], ascii ['-', 'c'], ascii ['2'], ascii ['f']] _ _ rfl rfl hasWork_oneFile ?_ .rfl _
    oneFile_contents
  rw [HasWork, if_pos hopt]
  exact ⟨by decide, ascii ['2'], 2, rfl, rfl, by decide⟩

/-- **The output is sorted for good**: a run of the program on the output file of another one ends
    with this file again, byte for byte. -/
theorem output_idempotent (env env' : Env) (argv argv' : List (List CChar)) (args args' : Args)
    (hargs : mainArgs argv = pure args) (hargs' : mainArgs argv' = pure args')
    (hwork : HasWork argv) (hwork' : HasWork argv') (vals : List (List Int))
    (hvals : Contents env args.names vals) (hsmall : vals.flatten.length < 2 ^ 30)
    (s : State MainState Local Mem) (hs : EndsIn env args s) (f : List CChar)
    (hnames : args'.names = [f]) (hfile : env'.content f = some (outputText s.mem.output)) :
    (∃ s', EndsIn env' args' s') ∧
      ∀ s', EndsIn env' args' s' → outputText s'.mem.output = outputText s.mem.output := by
  have hout := (endsIn_output hargs hwork hvals).2 s hs
  have hlen : (sorted vals).length = vals.flatten.length := List.length_mergeSort _
  have hvals' : Contents env' args'.names [sorted vals] := by
    rw [hnames]
    refine .cons ⟨_, hfile, ?_, sorted_ne_nil (hwork.names_coroParam hargs).1 hvals, by omega⟩ .nil
    rw [hout]
    exact outputText_intText (sorted_fitInt hvals)
  obtain ⟨hends, hout'⟩ := endsIn_output hargs' hwork' hvals'
  refine ⟨hends, fun s' hs' => ?_⟩
  have hsorted : sorted vals = sorted [sorted vals] :=
    eq_sorted (List.pairwise_mergeSort' (· ≤ ·) _) (by simp)
  rw [hout' s' hs', hout, ← hsorted]

/-- The output `1 2 ` of a run, given to another one. -/
theorem output_idempotent_oneFile :
    ∃ s, EndsIn oneFile ⟨1, 6, [ascii ['f']]⟩ s ∧
      (∃ s', EndsIn { oneFile with content := fun _ => some (outputText s.mem.output) }
        ⟨1, 6, [ascii ['f']]⟩ s') ∧
      ∀ s', EndsIn { oneFile with content := fun _ => some (outputText s.mem.output) }
        ⟨1, 6, [ascii ['f']]⟩ s' → outputText s'.mem.output = outputText s.mem.output := by
  have hargs : mainArgs [ascii ['s'], ascii ['f']] = pure ⟨1, 6, [ascii ['f']]⟩ := rfl
  obtain ⟨⟨s, hs⟩, -⟩ := endsIn_output hargs hasWork_oneFile oneFile_contents
  exact ⟨s, hs, output_idempotent oneFile _ [ascii ['s'], ascii ['f']] [ascii ['s'], ascii ['f']] _ _
    rfl rfl hasWork_oneFile hasWork_oneFile _ oneFile_contents (by decide) s hs (ascii ['f']) rfl rfl⟩

end SysProg.MergeSort
