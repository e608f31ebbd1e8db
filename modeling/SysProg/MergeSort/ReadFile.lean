import Mathlib.Data.List.TakeWhile
import SysProg.Lib.CLang

set_option autoImplicit false

/-! # `read_file` (`1/solution/solution.c`)

The numbers of a file are read by `fscanf(file, "%d", ..)` into an array that grows by doubling. -/

namespace SysProg.MergeSort

/-- What the program finds in its environment. -/
structure Env where
  /-- The content of the file that `fopen(name, "r")` opens, if it opens one. -/
  content : List CChar → Option (List CChar)
  /-- What the cells of an array hold that were never written. -/
  junk : Nat → Int
  /-- The nanoseconds that the successive calls of `clock_gettime` tell. -/
  clock : Nat → UInt64

/-! ## `fscanf` with the format `%d` -/

def isSpace (c : CChar) : Bool := c = 32 || (9 ≤ c && c ≤ 13)

def isDigit (c : CChar) : Bool := 48 ≤ c && c ≤ 57

/-- The value of a sequence of decimal digits. -/
def decimal (ds : List CChar) : Int := ds.foldl (fun v c => 10 * v + (c.toNat - 48 : Int)) 0

/-- What a call of `fscanf` reports: it stored a value, or the input is not a number, or it is at
    its end. -/
inductive Status where
  | value (v : Int)
  | mismatch
  | eof
deriving DecidableEq

/-- What the cell holds that `fscanf` was given, where it held `old` before. -/
def Status.cell (old : Int) : Status → Int
  | .value v => v
  | _ => old

/-- A call of `fscanf` on the rest of a stream. A number that is no `int` is undefined. -/
def fscanf (stream : List CChar) : C (Status × List CChar) :=
  match stream.dropWhile isSpace with
  | [] => pure (.eof, [])
  | c :: rest =>
    let negative := c = 45
    let number := if c = 45 ∨ c = 43 then rest else c :: rest
    let ds := number.takeWhile isDigit
    if ds = [] then pure (.mismatch, number)
    else do
      let v ← int32 (if negative then -decimal ds else decimal ds)
      pure (.value v, number.drop ds.length)

/-! ## The function -/

/-- Twice the memory, when the array is full. -/
def grow (count allocated : Int) : C Int :=
  if count = allocated then int32 (allocated * 2) else pure allocated

/-- The loop of `read_file`, whose `i` is always `count`. Every number takes a byte of the stream, so
    a loop that makes more iterations than there are bytes goes on forever. -/
def readLoop (junk : Nat → Int) :
    Nat → List CChar → List Int → Int → Int → C (List Int × Int)
  | 0, _, _, _, _ => throw .diverge
  | fuel + 1, file, temp, count, allocated =>
    if allocated ≤ count then throw .undefined
    else do
      let (status, file) ← fscanf file
      if status = .eof then pure (temp, count)
      else do
        let temp := temp ++ [status.cell (junk temp.length)]
        let count ← int32 (count + 1)
        let allocated ← grow count allocated
        readLoop junk fuel file temp count allocated

/-- The array `read_file` stores to `*array`, and the number of integers it returns. Its first cell
    is cleared by `calloc`; a `realloc` to no bytes at all returns NULL. -/
def readFile (env : Env) (fname : List CChar) : C (List Int × Int) :=
  match env.content fname with
  | none => throw .undefined
  | some content => do
    let (temp, count) ← readLoop (fun i => if i = 0 then 0 else env.junk i) (content.length + 2)
      content [] 0 1
    if count = 0 then throw (.exit (-1)) else pure (temp, count)

theorem readLoop_length {junk : Nat → Int} {fuel : Nat} {file : List CChar} {temp vs : List Int}
    {count allocated n : Int} (hcount : count = temp.length)
    (h : readLoop junk fuel file temp count allocated = pure (vs, n)) : n = vs.length := by
  induction fuel generalizing file temp count allocated with
  | zero => cases h
  | succ fuel ih =>
      rw [readLoop] at h
      split_ifs at h
      · cases h
      · obtain ⟨⟨status, file'⟩, -, h⟩ := bind_eq_pure.1 h
        simp only at h
        split_ifs at h
        · obtain ⟨rfl, rfl⟩ := Prod.mk.inj ((pure_inj _ _).1 h)
          exact hcount
        · obtain ⟨count', hcount', h⟩ := bind_eq_pure.1 h
          obtain ⟨allocated', -, h⟩ := bind_eq_pure.1 h
          refine ih ?_ h
          rw [int32] at hcount'
          split_ifs at hcount'
          · rw [← (pure_inj _ _).1 hcount', hcount]
            simp
          · cases hcount'

/-- `read_file` returns the number of integers it has read, at least one. -/
theorem readFile_length {env : Env} {fname : List CChar} {vs : List Int} {n : Int}
    (h : readFile env fname = pure (vs, n)) : n = vs.length ∧ vs ≠ [] := by
  unfold readFile at h
  split at h
  · cases h
  · obtain ⟨⟨temp, count⟩, hloop, h⟩ := bind_eq_pure.1 h
    simp only at h
    split_ifs at h with hzero
    · cases h
    · obtain ⟨rfl, rfl⟩ := Prod.mk.inj ((pure_inj _ _).1 h)
      have hlen := readLoop_length (by simp) hloop
      refine ⟨hlen, ?_⟩
      rintro rfl
      exact hzero hlen

/-! ## Texts of numbers -/

/-- A decimal number: digits after an optional sign. -/
inductive Numeral : List CChar → Int → Prop
  | plain {ds : List CChar} (hne : ds ≠ []) (hds : ∀ c ∈ ds, isDigit c = true) :
      Numeral ds (decimal ds)
  | plus {ds : List CChar} (hne : ds ≠ []) (hds : ∀ c ∈ ds, isDigit c = true) :
      Numeral (43 :: ds) (decimal ds)
  | minus {ds : List CChar} (hne : ds ≠ []) (hds : ∀ c ∈ ds, isDigit c = true) :
      Numeral (45 :: ds) (-decimal ds)

/-- Integers that fit `int`, separated by white space. -/
inductive IntText : List CChar → List Int → Prop
  | nil {ws : List CChar} (hws : ∀ c ∈ ws, isSpace c = true) : IntText ws []
  | cons {ws num rest : List CChar} {v : Int} {vs : List Int} (hws : ∀ c ∈ ws, isSpace c = true)
      (hnum : Numeral num v) (hlo : -2 ^ 31 ≤ v) (hhi : v < 2 ^ 31)
      (hsep : ∀ c ∈ rest.head?, isSpace c = true) (hrest : IntText rest vs) :
      IntText (ws ++ num ++ rest) (v :: vs)

/-- Integers that fit `int`, each after white space or none: all that `fscanf` can read to the end
    without a mismatch. -/
inductive Scannable : List CChar → List Int → Prop
  | nil {ws : List CChar} (hws : ∀ c ∈ ws, isSpace c = true) : Scannable ws []
  | cons {ws num rest : List CChar} {v : Int} {vs : List Int} (hws : ∀ c ∈ ws, isSpace c = true)
      (hnum : Numeral num v) (hlo : -2 ^ 31 ≤ v) (hhi : v < 2 ^ 31)
      (hsep : ∀ c ∈ rest.head?, isDigit c = false) (hrest : Scannable rest vs) :
      Scannable (ws ++ num ++ rest) (v :: vs)

theorem isDigit_iff {c : CChar} : isDigit c = true ↔ 48 ≤ c.toNat ∧ c.toNat ≤ 57 := by
  simp [isDigit, UInt8.le_iff_toNat_le]

theorem isSpace_iff {c : CChar} :
    isSpace c = true ↔ c.toNat = 32 ∨ (9 ≤ c.toNat ∧ c.toNat ≤ 13) := by
  simp [isSpace, UInt8.le_iff_toNat_le, ← UInt8.toNat_inj]

theorem digit_not_space {c : CChar} (h : isDigit c = true) : isSpace c = false := by
  rw [isDigit_iff] at h
  rw [Bool.eq_false_iff, ne_eq, isSpace_iff]
  omega

theorem space_not_digit {c : CChar} (h : isSpace c = true) : isDigit c = false := by
  rw [isSpace_iff] at h
  rw [Bool.eq_false_iff, ne_eq, isDigit_iff]
  omega

theorem digit_not_sign {c : CChar} (h : isDigit c = true) : c ≠ 45 ∧ c ≠ 43 := by
  rw [isDigit_iff] at h
  constructor
  · rintro rfl
    revert h
    decide
  · rintro rfl
    revert h
    decide

/-- The digits of a number, up to another character or the end. -/
theorem takeWhile_digits {ds rest : List CChar} (hds : ∀ c ∈ ds, isDigit c = true)
    (hsep : ∀ c ∈ rest.head?, isDigit c = false) : (ds ++ rest).takeWhile isDigit = ds := by
  rw [List.takeWhile_append_of_pos hds]
  cases rest with
  | nil => simp
  | cons c rest => simp [hsep c rfl]

/-- `fscanf` reads the next number of a text. -/
theorem fscanf_numeral {ws num rest : List CChar} {v : Int}
    (hws : ∀ c ∈ ws, isSpace c = true) (hnum : Numeral num v) (hlo : -2 ^ 31 ≤ v) (hhi : v < 2 ^ 31)
    (hsep : ∀ c ∈ rest.head?, isDigit c = false) :
    fscanf (ws ++ num ++ rest) = pure (.value v, rest) := by
  rw [fscanf, List.append_assoc, List.dropWhile_append_of_pos hws]
  cases hnum with
  | plain hne hds =>
      obtain ⟨d, ds, rfl⟩ := List.exists_cons_of_ne_nil hne
      have hd := hds d (List.mem_cons_self ..)
      obtain ⟨hminus, hplus⟩ := digit_not_sign hd
      have htake := takeWhile_digits hds hsep
      rw [List.cons_append] at htake
      simp only [List.cons_append, List.dropWhile_cons, digit_not_space hd, Bool.false_eq_true,
        if_false, hminus, hplus, or_self, htake]
      simp [int32_of_range hlo hhi]
  | plus hne hds =>
      have htake := takeWhile_digits hds hsep
      have hspace : isSpace 43 = false := by decide
      simp only [List.cons_append, List.dropWhile_cons, hspace, Bool.false_eq_true, if_false, or_true,
        if_true, htake, hne]
      simp [int32_of_range hlo hhi]
  | minus hne hds =>
      have htake := takeWhile_digits hds hsep
      have hspace : isSpace 45 = false := by decide
      simp only [List.cons_append, List.dropWhile_cons, hspace, Bool.false_eq_true, if_false, true_or,
        if_true, htake, hne]
      simp [int32_of_range hlo hhi]

theorem fscanf_end {ws : List CChar} (hws : ∀ c ∈ ws, isSpace c = true) :
    fscanf ws = pure (.eof, []) := by
  rw [fscanf, List.dropWhile_eq_nil_iff.2 hws]

theorem Numeral.length_pos {num : List CChar} {v : Int} (h : Numeral num v) : 0 < num.length := by
  cases h with
  | plain hne _ => exact List.length_pos_iff.2 hne
  | plus _ _ => exact Nat.succ_pos _
  | minus _ _ => exact Nat.succ_pos _

theorem Scannable.length_le {text : List CChar} {vs : List Int} (h : Scannable text vs) :
    vs.length ≤ text.length := by
  induction h with
  | nil _ => exact Nat.zero_le _
  | @cons ws num rest v vs _ hnum _ _ _ _ ih =>
      have hpos := hnum.length_pos
      rw [List.length_append, List.length_append, List.length_cons]
      omega

theorem IntText.scannable {text : List CChar} {vs : List Int} (h : IntText text vs) :
    Scannable text vs := by
  induction h with
  | nil hws => exact .nil hws
  | cons hws hnum hlo hhi hsep _ ih =>
      exact .cons hws hnum hlo hhi (fun c hc => space_not_digit (hsep c hc)) ih

theorem readLoop_text (junk : Nat → Int) {text : List CChar} {vs : List Int}
    (h : Scannable text vs) (temp : List Int) (fuel : Nat) (hfuel : vs.length < fuel) (allocated : Int)
    (hroom : (temp.length : Int) < allocated) (hint : temp.length + vs.length < 2 ^ 30) :
    readLoop junk fuel text temp temp.length allocated
      = pure (temp ++ vs, ((temp ++ vs).length : Int)) := by
  induction h generalizing temp fuel allocated with
  | nil hws =>
      obtain ⟨fuel, rfl⟩ := Nat.exists_eq_add_of_lt hfuel
      simp [readLoop, not_le.2 hroom, fscanf_end hws]
  | @cons ws num rest v vs hws hnum hlo hhi hsep hrest ih =>
      obtain ⟨fuel, rfl⟩ : ∃ m, fuel = m + 1 := ⟨fuel - 1, by omega⟩
      rw [List.length_cons] at hfuel hint
      have hlen : ((temp.length : Int) + 1) = ((temp ++ [v]).length : Int) := by simp
      obtain ⟨allocated', hgrow, hroom'⟩ : ∃ allocated', grow ((temp ++ [v]).length : Int) allocated
          = pure allocated' ∧ ((temp ++ [v]).length : Int) < allocated' := by
        rw [← hlen, grow]
        split
        · next heq =>
            refine ⟨allocated * 2, int32_of_range (by omega) (by omega), by omega⟩
        · exact ⟨allocated, rfl, by omega⟩
      have hrec := ih (temp ++ [v]) fuel (by omega) allocated' hroom' (by
        rw [List.length_append, List.length_singleton]
        omega)
      rw [readLoop, if_neg (not_le.2 hroom), fscanf_numeral hws hnum hlo hhi hsep]
      simp only [pure_bind, reduceCtorEq, if_false, Status.cell]
      rw [int32_of_range (by omega) (by omega), pure_bind, hlen, hgrow, pure_bind, hrec,
        List.append_assoc, List.singleton_append]

/-- **`read_file` reads the integers of a text.** -/
theorem readFile_text {env : Env} {fname text : List CChar} {vs : List Int}
    (hopen : env.content fname = some text) (htext : IntText text vs) (hne : vs ≠ [])
    (hint : vs.length < 2 ^ 30) : readFile env fname = pure (vs, (vs.length : Int)) := by
  have hfuel : vs.length < text.length + 2 := by
    have := htext.scannable.length_le
    omega
  have hloop := readLoop_text (fun i => if i = 0 then 0 else env.junk i) htext.scannable [] (text.length + 2)
    hfuel 1 (by simp) (by simpa using hint)
  rw [List.nil_append, List.length_nil] at hloop
  have hpos : ((vs.length : Nat) : Int) ≠ 0 := by
    have := List.length_pos_iff.2 hne
    omega
  simp only [readFile, hopen]
  rw [show ((0 : Nat) : Int) = 0 from rfl] at hloop
  rw [hloop]
  simp only [pure_bind, hpos, if_false]

/-- A text without numbers leaves `count` at 0, and the `realloc` of the array to no bytes is taken
    for a failure. -/
theorem readFile_empty {env : Env} {fname text : List CChar} (hopen : env.content fname = some text)
    (htext : IntText text []) : readFile env fname = throw (.exit (-1)) := by
  have hloop := readLoop_text (fun i => if i = 0 then 0 else env.junk i) htext.scannable []
    (text.length + 2) (by simp) 1 (by simp) (by simp)
  rw [List.nil_append, List.length_nil] at hloop
  simp only [readFile, hopen]
  rw [show ((0 : Nat) : Int) = 0 from rfl] at hloop
  rw [hloop]
  rfl

/-- **When `read_file` returns the integers of a text**: exactly when there are any. -/
theorem readFile_text_iff (env : Env) (fname text : List CChar) (vs : List Int)
    (hopen : env.content fname = some text) (htext : IntText text vs) (hint : vs.length < 2 ^ 30) :
    readFile env fname = pure (vs, (vs.length : Int)) ↔ vs ≠ [] := by
  constructor
  · rintro hread rfl
    rw [readFile_empty hopen htext] at hread
    exact throw_ne_pure _ _ hread
  · intro hne
    exact readFile_text hopen htext hne hint

/-- The text ` -7⏎12`. -/
theorem readFile_text_iff_two :
    readFile ⟨fun _ => some (ascii [' ', '-', '7', '\n', '1', '2']), fun _ => 0, fun _ => 0⟩ []
        = pure ([-7, 12], (([-7, 12] : List Int).length : Int)) ↔ ([-7, 12] : List Int) ≠ [] := by
  have hseven : Numeral (45 :: [55]) (-decimal [55]) := .minus (by decide) (by decide)
  have htwelve : Numeral [49, 50] (decimal [49, 50]) := .plain (by decide) (by decide)
  have hlast : IntText ([10] ++ [49, 50] ++ []) [decimal [49, 50]] :=
    .cons (by decide) htwelve (by decide) (by decide) (by simp) (.nil (by simp))
  have htext : IntText ([32] ++ 45 :: [55] ++ ([10] ++ [49, 50] ++ []))
      [-decimal [55], decimal [49, 50]] :=
    .cons (by decide) hseven (by decide) (by decide) (by rintro _ ⟨⟩; rfl) hlast
  exact readFile_text_iff _ _ _ _ rfl htext (by decide)

/-- On the empty text `read_file` ends the program. -/
theorem readFile_text_empty :
    IntText [] [] ∧ readFile ⟨fun _ => some [], fun _ => 0, fun _ => 0⟩ [] = throw (.exit (-1)) ∧
      readFile ⟨fun _ => some [], fun _ => 0, fun _ => 0⟩ [] ≠ pure ([], 0) := by
  have hexit : readFile ⟨fun _ => some [], fun _ => 0, fun _ => 0⟩ [] = throw (.exit (-1)) := rfl
  refine ⟨.nil (by simp), hexit, ?_⟩
  rw [hexit]
  exact throw_ne_pure _ _

end SysProg.MergeSort
