import SysProg.MergeSort.ReadFile

set_option autoImplicit false

/-! # When the loop of `read_file` ends

The loop takes every answer of `fscanf` but EOF for a number. Where a character is no part of one,
`fscanf` leaves it in the stream, and the loop counts on and does not end. -/

namespace SysProg.MergeSort

/-- How many integers the first `n` calls of `fscanf` convert, up to the end of the stream. -/
def conversions : Nat → List CChar → Nat
  | 0, _ => 0
  | n + 1, file =>
    match fscanf file with
    | .ok (.value _, file) => conversions n file + 1
    | .ok (.mismatch, file) => conversions n file
    | _ => 0

/-- The loop of `read_file` on `content` ends, and has counted no more than was converted. -/
def ReadLoopEnds (junk : Nat → Int) (content : List CChar) : Prop :=
  ∃ n temp count, readLoop junk n content [] 0 1 = pure (temp, count) ∧ count ≤ conversions n content

/-! ## A call of `fscanf` -/

/-- The digits at the head of a text, and what follows them. -/
theorem digits_split (number : List CChar) :
    ∃ ds rest, number.takeWhile isDigit = ds ∧ number = ds ++ rest ∧ number.drop ds.length = rest ∧
      (∀ c ∈ ds, isDigit c = true) ∧ ∀ c ∈ rest.head?, isDigit c = false := by
  have hsplit := List.takeWhile_append_dropWhile (p := isDigit) (l := number)
  refine ⟨_, number.dropWhile isDigit, rfl, hsplit.symm, ?_, fun c hc => List.mem_takeWhile_imp hc, ?_⟩
  · nth_rewrite 2 [← hsplit]
    exact List.drop_left
  · intro c hc
    have hnot := List.head?_dropWhile_not isDigit number
    rw [Option.mem_def.1 hc] at hnot
    simpa using hnot

/-- Everything a call of `fscanf` can report. -/
theorem fscanf_cases {stream rest : List CChar} {status : Status}
    (h : fscanf stream = pure (status, rest)) :
    (status = .eof ∧ ∀ c ∈ stream, isSpace c = true) ∨
    (status = .mismatch ∧ (rest.length < stream.length ∨ rest = stream)) ∨
    ∃ ws num v, status = .value v ∧ stream = ws ++ num ++ rest ∧ (∀ c ∈ ws, isSpace c = true) ∧
      Numeral num v ∧ -2 ^ 31 ≤ v ∧ v < 2 ^ 31 ∧ ∀ c ∈ rest.head?, isDigit c = false := by
  have hsplit := List.takeWhile_append_dropWhile (p := isSpace) (l := stream)
  have hws : ∀ c ∈ stream.takeWhile isSpace, isSpace c = true := fun c hc =>
    List.mem_takeWhile_imp hc
  unfold fscanf at h
  split at h
  · next hnil =>
      obtain ⟨rfl, -⟩ := Prod.mk.inj ((pure_inj _ _).1 h)
      exact Or.inl ⟨rfl, List.dropWhile_eq_nil_iff.1 hnil⟩
  · next c tail hcons =>
      rw [hcons] at hsplit
      obtain ⟨number, hnumber⟩ : ∃ number, number = if c = 45 ∨ c = 43 then tail else c :: tail :=
        ⟨_, rfl⟩
      obtain ⟨ds, rest', htake, hds, hdrop, hdigits, hend⟩ := digits_split number
      simp only [← hnumber, htake] at h
      by_cases hnone : ds = []
      · -- no digits: at most white space and a sign are taken
        rw [if_pos hnone] at h
        obtain ⟨rfl, rfl⟩ := Prod.mk.inj ((pure_inj _ _).1 h)
        refine Or.inr (Or.inl ⟨rfl, ?_⟩)
        rcases hw : stream.takeWhile isSpace with _ | ⟨w, ws⟩
        · rw [hw, List.nil_append] at hsplit
          rw [← hsplit, hnumber]
          split_ifs
          · exact Or.inl (Nat.lt_succ_self _)
          · exact Or.inr rfl
        · rw [hw] at hsplit
          rw [← hsplit, hnumber]
          refine Or.inl ?_
          split_ifs <;> simp only [List.length_append, List.length_cons] <;> omega
      · rw [if_neg hnone, hdrop] at h
        obtain ⟨v, hv, h⟩ := bind_eq_pure.1 h
        obtain ⟨rfl, rfl⟩ := Prod.mk.inj ((pure_inj _ _).1 h)
        obtain ⟨rfl, hlo, hhi⟩ := int32_eq_pure hv
        have hnum : ∃ num, Numeral num (if c = 45 then -decimal ds else decimal ds) ∧
            c :: tail = num ++ rest' := by
          by_cases hminus : c = 45
          · rw [if_pos (Or.inl hminus)] at hnumber
            rw [if_pos hminus, hminus, ← hnumber, hds]
            exact ⟨_, .minus hnone hdigits, rfl⟩
          · rw [if_neg hminus]
            by_cases hplus : c = 43
            · rw [if_pos (Or.inr hplus)] at hnumber
              rw [hplus, ← hnumber, hds]
              exact ⟨_, .plus hnone hdigits, rfl⟩
            · rw [if_neg (not_or.2 ⟨hminus, hplus⟩)] at hnumber
              rw [← hnumber, hds]
              exact ⟨_, .plain hnone hdigits, rfl⟩
        obtain ⟨num, hnumeral, hcons'⟩ := hnum
        refine Or.inr (Or.inr ⟨_, num, _, rfl, ?_, hws, hnumeral, hlo, hhi, hend⟩)
        rw [List.append_assoc, ← hcons', hsplit]

/-! ## The loop -/

/-- One iteration of a loop that ends. -/
theorem readLoop_cases {junk : Nat → Int} {n : Nat} {file : List CChar} {temp temp' : List Int}
    {count allocated count' : Int}
    (h : readLoop junk (n + 1) file temp count allocated = pure (temp', count')) :
    count < allocated ∧ ∃ status rest, fscanf file = pure (status, rest) ∧
      ((status = .eof ∧ temp' = temp ∧ count' = count) ∨
      (status ≠ .eof ∧ int32 (count + 1) = pure (count + 1) ∧
        ∃ allocated', grow (count + 1) allocated = pure allocated' ∧
        readLoop junk n rest (temp ++ [status.cell (junk temp.length)]) (count + 1) allocated'
          = pure (temp', count'))) := by
  rw [readLoop] at h
  split at h
  · cases h
  · next hroom =>
      obtain ⟨⟨status, rest⟩, hscan, h⟩ := bind_eq_pure.1 h
      refine ⟨not_le.1 hroom, status, rest, hscan, ?_⟩
      by_cases heof : status = .eof
      · simp only [heof, if_true] at h
        obtain ⟨rfl, rfl⟩ := Prod.mk.inj ((pure_inj _ _).1 h)
        exact Or.inl ⟨heof, rfl, rfl⟩
      · simp only [heof, if_false] at h
        obtain ⟨next, hnext, h⟩ := bind_eq_pure.1 h
        obtain ⟨rfl, -, -⟩ := int32_eq_pure hnext
        obtain ⟨allocated', hgrow, h⟩ := bind_eq_pure.1 h
        exact Or.inr ⟨heof, hnext, allocated', hgrow, h⟩

/-- A loop that ends has counted at least what was converted. -/
theorem conversions_le {junk : Nat → Int} {n : Nat} {file : List CChar} {temp temp' : List Int}
    {count allocated count' : Int}
    (h : readLoop junk n file temp count allocated = pure (temp', count')) :
    count + conversions n file ≤ count' := by
  induction n generalizing file temp count allocated with
  | zero => cases h
  | succ n ih =>
      obtain ⟨-, status, rest, hscan, hnext⟩ := readLoop_cases h
      have hscan' : fscanf file = .ok (status, rest) := hscan
      rw [conversions, hscan']
      rcases hnext with ⟨rfl, -, rfl⟩ | ⟨heof, -, allocated', -, hloop⟩
      · simp
      · have hrec := ih hloop
        cases status with
        | value v =>
            simp only [Nat.cast_add, Nat.cast_one]
            omega
        | mismatch =>
            simp only
            omega
        | eof => exact absurd rfl heof

/-- Where `fscanf` makes no progress, neither does the loop. -/
theorem readLoop_stuck {junk : Nat → Int} {file : List CChar}
    (hscan : fscanf file = pure (.mismatch, file)) {temp : List Int} {count allocated : Int} (n : Nat)
    (r : List Int × Int) : readLoop junk n file temp count allocated ≠ pure r := by
  induction n generalizing temp count allocated with
  | zero => exact throw_ne_pure _ _
  | succ n ih =>
      intro h
      obtain ⟨-, status, rest, hscan', hnext⟩ := readLoop_cases h
      rw [hscan, pure_inj, Prod.mk.injEq] at hscan'
      obtain ⟨rfl, rfl⟩ := hscan'
      rcases hnext with ⟨heof, -⟩ | ⟨-, -, allocated', -, hloop⟩
      · cases heof
      · exact ih hloop

/-- A loop that ends takes a byte with every iteration, so the bound of `readFile` cuts no loop off
    that ends. -/
theorem readLoop_enough {junk : Nat → Int} {n m : Nat} {file : List CChar} {temp : List Int}
    {count allocated : Int} {r : List Int × Int}
    (h : readLoop junk n file temp count allocated = pure r) (hm : file.length < m) :
    readLoop junk m file temp count allocated = pure r := by
  induction n generalizing m file temp count allocated with
  | zero => cases h
  | succ n ih =>
      obtain ⟨m, rfl⟩ := Nat.exists_eq_add_of_lt hm
      obtain ⟨hroom, status, rest, hscan, hnext⟩ := readLoop_cases h
      rw [readLoop, if_neg (not_le.2 hroom), hscan, pure_bind]
      rcases hnext with ⟨rfl, htemp, hcount⟩ | ⟨heof, hone, allocated', hgrow, hloop⟩
      · simp only [if_true, pure_inj]
        exact Prod.ext htemp.symm hcount.symm
      · have hless : rest.length < file.length := by
          rcases fscanf_cases hscan with ⟨hst, -⟩ | ⟨hst, hlt | rfl⟩ | ⟨ws, num, v, -, rfl, -, hnum, -⟩
          · exact absurd hst heof
          · exact hlt
          · rw [hst] at hscan
            exact absurd h (readLoop_stuck hscan _ _)
          · have hpos := hnum.length_pos
            rw [List.length_append, List.length_append]
            omega
        simp only [heof, if_false, hone, pure_bind, hgrow]
        exact ih hloop (by omega)

/-- The array has room for a power of two. -/
theorem grow_pow {count allocated allocated' : Int} (h : grow count allocated = pure allocated')
    (hpow : ∃ t ≤ 30, allocated = ((2 ^ t : Nat) : Int)) :
    ∃ t ≤ 30, allocated' = ((2 ^ t : Nat) : Int) := by
  obtain ⟨t, ht, rfl⟩ := hpow
  unfold grow at h
  split at h
  · obtain ⟨rfl, -, hlt⟩ := int32_eq_pure h
    have hlt' : 2 ^ (t + 1) < 2 ^ 31 := by
      rw [Nat.pow_succ]
      omega
    have ht' := (Nat.pow_lt_pow_iff_right (by decide)).1 hlt'
    exact ⟨t + 1, by omega, by rw [Nat.pow_succ, Nat.cast_mul]; rfl⟩
  · rw [← (pure_inj _ _).1 h]
    exact ⟨t, ht, rfl⟩

/-- A loop that ends has counted fewer than `2 ^ 30`: there is still room in the array, whose size is
    a power of two that fits `int`. -/
theorem readLoop_small {junk : Nat → Int} {n : Nat} {file : List CChar} {temp temp' : List Int}
    {count allocated count' : Int} (hpow : ∃ t ≤ 30, allocated = ((2 ^ t : Nat) : Int))
    (h : readLoop junk n file temp count allocated = pure (temp', count')) : count' < 2 ^ 30 := by
  induction n generalizing file temp count allocated with
  | zero => cases h
  | succ n ih =>
      obtain ⟨hroom, status, rest, -, hnext⟩ := readLoop_cases h
      rcases hnext with ⟨-, -, rfl⟩ | ⟨-, -, allocated', hgrow, hloop⟩
      · obtain ⟨t, ht, rfl⟩ := hpow
        have hsmall : 2 ^ t ≤ 2 ^ 30 := Nat.pow_le_pow_right (by decide) ht
        omega
      · exact ih (grow_pow hgrow hpow) hloop

/-- A loop that ends and has counted no more than was converted has met nothing but integers. -/
theorem scannable_of_readLoop {junk : Nat → Int} {n : Nat} {file : List CChar}
    {temp temp' : List Int} {count allocated count' : Int}
    (h : readLoop junk n file temp count allocated = pure (temp', count'))
    (hle : count' ≤ count + conversions n file) :
    ∃ vs, Scannable file vs ∧ count' = count + vs.length := by
  induction n generalizing file temp count allocated with
  | zero => cases h
  | succ n ih =>
      obtain ⟨hroom, status, rest, hscan, hnext⟩ := readLoop_cases h
      have hscan' : fscanf file = .ok (status, rest) := hscan
      rw [conversions, hscan'] at hle
      rcases hnext with ⟨rfl, -, rfl⟩ | ⟨heof, hone, allocated', hgrow, hloop⟩
      · rcases fscanf_cases hscan with ⟨-, hws⟩ | ⟨hst, -⟩ | ⟨_, _, _, hst, -⟩
        · exact ⟨[], .nil hws, by simp⟩
        · cases hst
        · cases hst
      · have hcount := conversions_le hloop
        rcases fscanf_cases hscan with
          ⟨hst, -⟩ | ⟨rfl, -⟩ | ⟨ws, num, v, rfl, rfl, hws, hnum, hlo, hhi, hend⟩
        · exact absurd hst heof
        · -- a mismatch is counted but not converted
          simp only at hle
          omega
        · simp only [Nat.cast_add, Nat.cast_one] at hle
          obtain ⟨vs, hvs, hlen⟩ := ih hloop (by omega)
          refine ⟨v :: vs, .cons hws hnum hlo hhi hend hvs, ?_⟩
          rw [List.length_cons, hlen]
          push_cast
          ring

/-- Every integer of a text is converted. -/
theorem conversions_scannable {text : List CChar} {vs : List Int} (h : Scannable text vs) {n : Nat}
    (hn : vs.length < n) : conversions n text = vs.length := by
  induction h generalizing n with
  | nil hws =>
      obtain ⟨n, rfl⟩ := Nat.exists_eq_add_of_lt hn
      have hscan : fscanf _ = .ok (.eof, []) := fscanf_end hws
      rw [conversions, hscan]
      rfl
  | @cons ws num rest v vs hws hnum hlo hhi hsep _ ih =>
      obtain ⟨n, rfl⟩ : ∃ m, n = m + 1 := ⟨n - 1, by omega⟩
      have hscan : fscanf _ = .ok (.value v, rest) := fscanf_numeral hws hnum hlo hhi hsep
      rw [List.length_cons] at hn
      rw [conversions, hscan, List.length_cons]
      simp only
      rw [ih (by omega)]

/-- **When the loop of `read_file` ends** and has counted conversions only: exactly when the file
    consists of fewer than `2 ^ 30` integers that fit `int`. -/
theorem readLoop_ends_iff (junk : Nat → Int) (content : List CChar) :
    ReadLoopEnds junk content ↔ ∃ vs, Scannable content vs ∧ vs.length < 2 ^ 30 := by
  constructor
  · rintro ⟨n, temp, count, hloop, hle⟩
    have hsmall := readLoop_small ⟨0, by decide, rfl⟩ hloop
    obtain ⟨vs, hvs, rfl⟩ := scannable_of_readLoop hloop (by omega)
    exact ⟨vs, hvs, by omega⟩
  · rintro ⟨vs, hvs, hlt⟩
    have hloop := readLoop_text junk hvs [] (vs.length + 1) (Nat.lt_succ_self _) 1 (by simp)
      (by simpa using hlt)
    rw [List.nil_append] at hloop
    refine ⟨_, vs, _, hloop, ?_⟩
    rw [conversions_scannable hvs (Nat.lt_succ_self _)]

/-- On the file `x` the loop does not end after any number of iterations. -/
theorem readLoop_ends_letter :
    (∀ n r, readLoop (fun _ => 0) n (ascii ['x']) [] 0 1 ≠ pure r) ∧
      ¬ ReadLoopEnds (fun _ => 0) (ascii ['x']) := by
  have hstuck : ∀ n r, readLoop (fun _ => 0) n (ascii ['x']) [] 0 1 ≠ pure r :=
    readLoop_stuck rfl
  exact ⟨hstuck, fun ⟨n, temp, count, hloop, _⟩ => hstuck n _ hloop⟩

end SysProg.MergeSort
