import SysProg.Lib.KWay
import SysProg.MergeSort.Merge

set_option autoImplicit false

/-! # `write_result_to_file` (`1/solution/solution.c`)

The rows are merged by taking their smallest head again and again: one scan finds some row that is
not exhausted, a second one the row with the smallest head. The loop ends when a countdown of the
exhausted rows reaches 0, which rows that are empty from the start never enter, or when the first scan
finds nothing. The output file is one that `fopen` can open. -/

namespace SysProg.MergeSort

open KWay

/-! ## The function -/

/-- `array[i][j]`. -/
def cell (blocks : List (List Int)) (array : List (Option Nat)) (i : Nat) (j : Int) : C Int := do
  match ← load array i with
  | none => throw .undefined
  | some b => do
    let row ← load blocks b
    load row j

/-- `iters[i] < sizes[i]`. -/
def available (sizes iters : List Int) (i : Nat) : C Bool := do
  let it ← load iters i
  let sz ← load sizes i
  pure (decide (it < sz))

/-- `array[i][iters[i]]`. -/
def current (blocks : List (List Int)) (array : List (Option Nat)) (iters : List Int) (i : Nat) :
    C Int := do
  let it ← load iters i
  cell blocks array i it

/-- The first scan, with `n` rows left from row `i` on: `min` and `min_idx`. -/
def takeAvailable (blocks : List (List Int)) (array : List (Option Nat)) (sizes iters : List Int) :
    Nat → Nat → Int → Int → C (Int × Int)
  | 0, _, min, minIdx => pure (min, minIdx)
  | n + 1, i, min, minIdx => do
    if ← available sizes iters i then do
      let v ← current blocks array iters i
      takeAvailable blocks array sizes iters n (i + 1) v i
    else takeAvailable blocks array sizes iters n (i + 1) min minIdx

/-- The second scan. The element of a row is read only where the row is not exhausted. -/
def takeMin (blocks : List (List Int)) (array : List (Option Nat)) (sizes iters : List Int) :
    Nat → Nat → Int → Int → C (Int × Int)
  | 0, _, min, minIdx => pure (min, minIdx)
  | n + 1, i, min, minIdx => do
    if ← available sizes iters i then do
      let v ← current blocks array iters i
      if v < min then takeMin blocks array sizes iters n (i + 1) v i
      else takeMin blocks array sizes iters n (i + 1) min minIdx
    else takeMin blocks array sizes iters n (i + 1) min minIdx

/-- The loop of `write_result_to_file`; `out` has been written. -/
def writeLoop (blocks : List (List Int)) (array : List (Option Nat)) (sizes : List Int) (size : Nat) :
    Nat → Int → List Int → Int → List Int → C (List Int)
  | 0, _, _, _, _ => throw .diverge
  | fuel + 1, zeros, iters, min, out =>
    if 0 < zeros then do
      let (min, minIdx) ← takeAvailable blocks array sizes iters size 0 min (-1)
      if minIdx = -1 then pure out
      else do
        let (min, minIdx) ← takeMin blocks array sizes iters size 0 min minIdx
        let it ← load iters minIdx
        let it ← int32 (it + 1)
        let iters ← store iters minIdx it
        let sz ← load sizes minIdx
        let zeros := if sz ≤ it then zeros - 1 else zeros
        writeLoop blocks array sizes size fuel zeros iters min (out ++ [min])
    else pure out

/-- The numbers `write_result_to_file` writes. Every iteration but the last one moves some iterator
    on, so a loop that makes more iterations than the sizes allow goes on forever. -/
def writeResultToFile (blocks : List (List Int)) (array : List (Option Nat)) (sizes : List Int)
    (size : Int) : C (List Int) := do
  let n ← callocLength size
  let min ← cell blocks array 0 0
  writeLoop blocks array sizes n ((sizes.map Int.toNat).sum + 1) size (List.replicate n 0) min []

/-! ## Rows and iterators -/

/-- The arrays hold `rows`. Where a row is empty its pointer does not matter. -/
structure RowsAt (blocks : List (List Int)) (array : List (Option Nat)) (sizes : List Int)
    (rows : List (List Int)) : Prop where
  small : ∀ r ∈ rows, r.length < 2 ^ 31
  size : ∀ (i : Nat) r, rows[i]? = some r → sizes[i]? = some (r.length : Int)
  row : ∀ (i : Nat) r, rows[i]? = some r → r ≠ [] →
    ∃ b, array[i]? = some (some b) ∧ blocks[b]? = some r

/-- The iterators `iters` leave `rests` of `rows`. -/
structure Progress (rows : List (List Int)) (iters : List Int) (rests : List (List Int)) : Prop where
  length : rests.length = rows.length
  row : ∀ (i : Nat) r, rows[i]? = some r →
    ∃ k : Nat, iters[i]? = some (k : Int) ∧ k ≤ r.length ∧ rests[i]? = some (r.drop k)

section Loop

variable {blocks : List (List Int)} {array : List (Option Nat)} {sizes iters : List Int}
  {rows rests : List (List Int)}

theorem progress_start (rows : List (List Int)) :
    Progress rows (List.replicate rows.length 0) rows := by
  refine ⟨rfl, fun i r hr => ⟨0, ?_, Nat.zero_le _, by rw [List.drop_zero, hr]⟩⟩
  obtain ⟨hi, -⟩ := List.getElem?_eq_some_iff.1 hr
  rw [List.getElem?_replicate, if_pos hi]
  rfl

/-- The row a rest belongs to. -/
theorem Progress.get (hp : Progress rows iters rests) {i : Nat} {rest : List Int}
    (hi : rests[i]? = some rest) : ∃ r, ∃ k : Nat, rows[i]? = some r ∧ iters[i]? = some (k : Int) ∧
      k ≤ r.length ∧ rest = r.drop k := by
  obtain ⟨hlt, -⟩ := List.getElem?_eq_some_iff.1 hi
  rw [hp.length] at hlt
  obtain ⟨k, hk, hle, hrest⟩ := hp.row i _ (List.getElem?_eq_getElem hlt)
  exact ⟨_, k, List.getElem?_eq_getElem hlt, hk, hle, Option.some.inj (hi.symm.trans hrest)⟩

/-- A row is available exactly when something is left of it. -/
theorem available_run (h : RowsAt blocks array sizes rows) (hp : Progress rows iters rests) {i : Nat}
    {rest : List Int} (hi : rests[i]? = some rest) :
    available sizes iters i = pure (decide (rest ≠ [])) := by
  obtain ⟨r, k, hr, hk, hle, rfl⟩ := hp.get hi
  have hiff : ((k : Int) < r.length) ↔ r.drop k ≠ [] := by
    rw [Ne, List.drop_eq_nil_iff]
    omega
  rw [available, load_run hk, pure_bind, load_run (h.size i r hr), pure_bind,
    decide_eq_decide.2 hiff]

theorem current_run (h : RowsAt blocks array sizes rows) (hp : Progress rows iters rests) {i : Nat}
    {v : Int} {vs : List Int} (hi : rests[i]? = some (v :: vs)) :
    current blocks array iters i = pure v := by
  obtain ⟨r, k, hr, hk, hle, hdrop⟩ := hp.get hi
  have hne : r ≠ [] := by
    rintro rfl
    simp at hdrop
  obtain ⟨b, hb, hblock⟩ := h.row i r hr hne
  have hget : r[k]? = some v := by rw [← List.head?_drop, ← hdrop, List.head?_cons]
  rw [current, load_run hk, pure_bind, cell, load_run hb, pure_bind]
  simp only [load_run hblock, pure_bind, load_run hget]

/-- Moving the iterator of a row on. -/
theorem Progress.next (hp : Progress rows iters rests) {i k : Nat} {v : Int} {vs : List Int}
    (hk : iters[i]? = some (k : Int)) (hi : rests[i]? = some (v :: vs)) :
    Progress rows (iters.set i ((k : Int) + 1)) (rests.set i vs) := by
  refine ⟨by rw [List.length_set, hp.length], fun j r hr => ?_⟩
  obtain ⟨m, hm, hle, hrest⟩ := hp.row j r hr
  by_cases hij : i = j
  · subst hij
    obtain rfl : m = k := by
      have hcast := Option.some.inj (hm.symm.trans hk)
      omega
    have hdrop : r.drop m = v :: vs := Option.some.inj (hrest.symm.trans hi)
    have hlt : m < r.length := by
      have hlen := congrArg List.length hdrop
      rw [List.length_drop, List.length_cons] at hlen
      omega
    refine ⟨m + 1, ?_, hlt, ?_⟩
    · rw [List.getElem?_set_self (List.getElem?_eq_some_iff.1 hm).1]
      rfl
    · rw [List.getElem?_set_self (List.getElem?_eq_some_iff.1 hi).1, ← List.drop_drop, hdrop]
      rfl
  · exact ⟨m, by rw [List.getElem?_set_ne hij, hm], hle, by rw [List.getElem?_set_ne hij, hrest]⟩

/-! ## The scans -/

/-- The first scan finds a row that is not exhausted, if there is one. -/
theorem takeAvailable_run (h : RowsAt blocks array sizes rows) (hp : Progress rows iters rests)
    (n : Nat) : ∀ (i : Nat) (min minIdx : Int), i + n = rests.length →
    (takeAvailable blocks array sizes iters n i min minIdx = pure (min, minIdx) ∧
      ∀ (k : Nat) rest, i ≤ k → rests[k]? = some rest → rest = []) ∨
    ∃ (k : Nat) (v : Int) (vs : List Int),
      takeAvailable blocks array sizes iters n i min minIdx = pure (v, (k : Int)) ∧
      rests[k]? = some (v :: vs) := by
  induction n with
  | zero =>
      intro i min minIdx hlen
      refine Or.inl ⟨rfl, fun k rest hk hrest => ?_⟩
      have hlt := (List.getElem?_eq_some_iff.1 hrest).1
      omega
  | succ n ih =>
      intro i min minIdx hlen
      have hi : i < rests.length := by omega
      have hget := List.getElem?_eq_getElem hi
      rw [takeAvailable, available_run h hp hget, pure_bind]
      cases hrest : rests[i] with
      | nil =>
          rw [hrest] at hget
          simp only [ne_eq, not_true_eq_false, decide_false, Bool.false_eq_true, if_false]
          refine (ih (i + 1) min minIdx (by omega)).imp_left ?_
          rintro ⟨hrun, hempty⟩
          refine ⟨hrun, fun k rest hk hkrest => ?_⟩
          rcases Nat.eq_or_lt_of_le hk with rfl | hlt
          · exact Option.some.inj (hkrest.symm.trans hget)
          · exact hempty k rest hlt hkrest
      | cons v vs =>
          rw [hrest] at hget
          simp only [ne_eq, reduceCtorEq, not_false_eq_true, decide_true, if_true,
            current_run h hp hget, pure_bind]
          rcases ih (i + 1) v i (by omega) with ⟨hrun, -⟩ | hfound
          · exact Or.inr ⟨i, v, vs, hrun, hget⟩
          · exact Or.inr hfound

/-- The second scan finds a smallest head. -/
theorem takeMin_run (h : RowsAt blocks array sizes rows) (hp : Progress rows iters rests) (n : Nat) :
    ∀ (i k : Nat) (v : Int) (vs : List Int), i + n = rests.length → rests[k]? = some (v :: vs) →
    (∀ (j : Nat) w ws, j < i → rests[j]? = some (w :: ws) → v ≤ w) →
    ∃ (k' : Nat) (v' : Int) (vs' : List Int),
      takeMin blocks array sizes iters n i v k = pure (v', (k' : Int)) ∧
      rests[k']? = some (v' :: vs') ∧ ∀ (j : Nat) w ws, rests[j]? = some (w :: ws) → v' ≤ w := by
  induction n with
  | zero =>
      intro i k v vs hlen hk hmin
      refine ⟨k, v, vs, rfl, hk, fun j w ws hj => hmin j w ws ?_ hj⟩
      have hlt := (List.getElem?_eq_some_iff.1 hj).1
      omega
  | succ n ih =>
      intro i k v vs hlen hk hmin
      have hi : i < rests.length := by omega
      have hget := List.getElem?_eq_getElem hi
      rw [takeMin, available_run h hp hget, pure_bind]
      -- the heads below `i`, and the one at `i`
      have hnext : ∀ u : Int, u ≤ v → (∀ w ws, rests[i]? = some (w :: ws) → u ≤ w) →
          ∀ (j : Nat) w ws, j < i + 1 → rests[j]? = some (w :: ws) → u ≤ w := by
        intro u hu hat j w ws hj hw
        rcases Nat.lt_succ_iff_lt_or_eq.1 hj with hlt | rfl
        · exact hu.trans (hmin j w ws hlt hw)
        · exact hat w ws hw
      cases hrest : rests[i] with
      | nil =>
          rw [hrest] at hget
          simp only [ne_eq, not_true_eq_false, decide_false, Bool.false_eq_true, if_false]
          refine ih (i + 1) k v vs (by omega) hk (hnext v le_rfl fun w ws hw => ?_)
          rw [hget] at hw
          cases hw
      | cons u us =>
          rw [hrest] at hget
          have hat : ∀ x : Int, x ≤ u → ∀ w ws, rests[i]? = some (w :: ws) → x ≤ w := by
            intro x hx w ws hw
            obtain ⟨rfl, -⟩ := List.cons.inj (Option.some.inj (hget.symm.trans hw))
            exact hx
          simp only [ne_eq, reduceCtorEq, not_false_eq_true, decide_true, if_true,
            current_run h hp hget, pure_bind]
          by_cases hlt : u < v
          · rw [if_pos hlt]
            exact ih (i + 1) i u us (by omega) hget (hnext u hlt.le (hat u le_rfl))
          · rw [if_neg hlt]
            exact ih (i + 1) k v vs (by omega) hk (hnext v le_rfl (hat v (not_lt.1 hlt)))

/-! ## The loop -/

/-- How many rows are not exhausted. -/
def left (rests : List (List Int)) : Nat := rests.countP fun r => !r.isEmpty

theorem left_set {i : Nat} {v : Int} {vs : List Int} (hi : rests[i]? = some (v :: vs)) :
    left (rests.set i vs) + 1 = left rests + if vs = [] then 0 else 1 := by
  induction rests generalizing i with
  | nil => cases hi
  | cons r rests ih =>
      cases i with
      | zero =>
          obtain rfl : r = v :: vs := Option.some.inj hi
          cases vs <;> simp [left]
      | succ i =>
          have hrec := ih (show rests[i]? = some (v :: vs) from hi)
          simp only [left, List.set_cons_succ, List.countP_cons] at hrec ⊢
          omega

theorem left_eq_zero (h : left rests = 0) : ∀ r ∈ rests, r = [] := by
  intro r hr
  have hempty := List.countP_eq_zero.1 h r hr
  simpa using hempty

/-- The loop writes what is left in ascending order. The countdown is never below the number of rows
    that are not exhausted, and both exits mean that there are none. -/
theorem writeLoop_run (h : RowsAt blocks array sizes rows) (fuel : Nat) :
    ∀ (zeros : Int) (iters : List Int) (min : Int) (out : List Int) (rests : List (List Int)),
    Progress rows iters rests → Merging rows out rests → (left rests : Int) ≤ zeros →
    rests.flatten.length < fuel →
    ∃ out', writeLoop blocks array sizes rows.length fuel zeros iters min out = pure out' ∧
      out'.Pairwise (· ≤ ·) ∧ out'.Perm rows.flatten := by
  induction fuel with
  | zero => intro zeros iters min out rests _ _ _ hfuel; omega
  | succ fuel ih =>
      intro zeros iters min out rests hp hm hzeros hfuel
      rw [writeLoop]
      by_cases hpos : 0 < zeros
      · rw [if_pos hpos]
        have hlen : 0 + rows.length = rests.length := by rw [hp.length, Nat.zero_add]
        rcases takeAvailable_run h hp rows.length 0 min (-1) hlen with
          ⟨hscan, hempty⟩ | ⟨k, v, vs, hscan, hk⟩
        · -- no row is left
          rw [hscan, pure_bind]
          refine ⟨out, rfl, hm.finish fun r hr => ?_⟩
          obtain ⟨i, hi⟩ := List.mem_iff_getElem?.1 hr
          exact hempty i r (Nat.zero_le _) hi
        · obtain ⟨k', v', vs', hscan', hk', hmin⟩ :=
            takeMin_run h hp rows.length 0 k v vs hlen hk
              (fun j _ _ hj => absurd hj (Nat.not_lt_zero j))
          obtain ⟨r, m, hr, hm', hle, hdrop⟩ := hp.get hk'
          have hsmall := h.small r (List.mem_of_getElem? hr)
          have hlen' := congrArg List.length hdrop
          rw [List.length_cons, List.length_drop] at hlen'
          have hflat := (flatten_set_perm hk').length_eq
          rw [List.length_cons] at hflat
          have hleft := left_set hk'
          have hne : ((k : Int) = -1) = False := by simp
          simp only [hscan, pure_bind, hne, if_false, hscan', load_run hm',
            int32_of_range (show -2 ^ 31 ≤ (m : Int) + 1 by omega) (by omega),
            load_run (h.size k' r hr),
            store_run (List.getElem?_eq_some_iff.1 hm').1]
          refine ih _ _ _ _ _ (hp.next hm' hk') (hm.next hk' hmin) ?_ (by omega)
          by_cases hvs : vs' = []
          · rw [hvs, List.length_nil] at hlen'
            rw [if_pos hvs] at hleft
            rw [if_pos (by omega)]
            omega
          · have hpos' := List.length_pos_iff.2 hvs
            rw [if_neg hvs] at hleft
            rw [if_neg (by omega)]
            omega
      · rw [if_neg hpos]
        exact ⟨out, rfl, hm.finish (left_eq_zero (by omega))⟩

theorem left_le (rests : List (List Int)) : left rests ≤ rests.length := List.countP_le_length

/-- The loop, from its start. -/
theorem writeLoop_start (h : RowsAt blocks array sizes rows)
    (hsorted : ∀ r ∈ rows, r.Pairwise (· ≤ ·)) (min : Int) :
    ∃ out, writeLoop blocks array sizes rows.length ((sizes.map Int.toNat).sum + 1) rows.length
        (List.replicate rows.length 0) min [] = pure out ∧
      out.Pairwise (· ≤ ·) ∧ out.Perm rows.flatten := by
  -- the lengths of the rows are among the sizes
  have hsum : rows.flatten.length ≤ (sizes.map Int.toNat).sum := by
    have hpre : rows.map List.length <+: sizes.map Int.toNat := by
      rw [List.prefix_iff_getElem?]
      intro i hi
      rw [List.length_map] at hi
      rw [List.getElem?_map, h.size i _ (List.getElem?_eq_getElem hi), List.getElem_map]
      rfl
    obtain ⟨others, hothers⟩ := hpre
    rw [← hothers, List.sum_append, List.length_flatten]
    exact Nat.le_add_right ..
  have hzeros := left_le rows
  exact writeLoop_run h _ _ _ min [] rows (progress_start rows) (merging_start hsorted) (by omega)
    (by omega)

/-- The smallest candidate is first read from row 0. -/
theorem writeResultToFile_eq (h : RowsAt blocks array sizes rows)
    (hfirst : ∃ r, rows[0]? = some r ∧ r ≠ []) :
    ∃ min, writeResultToFile blocks array sizes rows.length
      = writeLoop blocks array sizes rows.length ((sizes.map Int.toNat).sum + 1) rows.length
        (List.replicate rows.length 0) min [] := by
  obtain ⟨r, hr, hne⟩ := hfirst
  obtain ⟨b, hb, hblock⟩ := h.row 0 r hr hne
  obtain ⟨v, vs, rfl⟩ := List.exists_cons_of_ne_nil hne
  have hcell : cell blocks array 0 0 = pure v := by
    rw [cell]
    simp only [load_run (show array[0]? = some (some b) from hb), pure_bind, load_run hblock]
    exact load_run (show (v :: vs)[0]? = some v from rfl)
  exact ⟨v, by rw [writeResultToFile, callocLength_run, pure_bind, hcell, pure_bind]⟩

end Loop

/-- **`write_result_to_file` merges**: it ends, reads the rows inside their lengths, and writes their
    numbers in nondecreasing order. -/
theorem writeResultToFile_merges (blocks : List (List Int)) (array : List (Option Nat))
    (sizes : List Int) (rows : List (List Int)) (h : RowsAt blocks array sizes rows)
    (hsorted : ∀ r ∈ rows, r.Pairwise (· ≤ ·)) (hfirst : ∃ r, rows[0]? = some r ∧ r ≠ []) :
    ∃ out, writeResultToFile blocks array sizes rows.length = pure out ∧
      out.Pairwise (· ≤ ·) ∧ out.Perm rows.flatten := by
  obtain ⟨min, hmin⟩ := writeResultToFile_eq h hfirst
  rw [hmin]
  exact writeLoop_start h hsorted min

/-- The rows 2, 5 and 1 around an empty one that has no array. -/
theorem writeResultToFile_merges_three :
    ∃ out, writeResultToFile [[1], [2, 5]] [some 1, none, some 0] [2, 0, 1]
        ([[2, 5], [], [1]] : List (List Int)).length = pure out ∧
      out.Pairwise (· ≤ ·) ∧ out.Perm ([[2, 5], [], [1]] : List (List Int)).flatten := by
  have hrows : RowsAt [[1], [2, 5]] [some 1, none, some 0] [2, 0, 1] [[2, 5], [], [1]] := by
    refine ⟨by decide, ?_, ?_⟩
    · intro i r hr
      match i with
      | 0 => rw [← Option.some.inj hr]; rfl
      | 1 => rw [← Option.some.inj hr]; rfl
      | 2 => rw [← Option.some.inj hr]; rfl
      | i + 3 => cases hr
    · intro i r hr hne
      match i with
      | 0 => exact ⟨1, rfl, hr⟩
      | 1 => exact absurd (Option.some.inj hr).symm hne
      | 2 => exact ⟨0, rfl, hr⟩
      | i + 3 => cases hr
  exact writeResultToFile_merges _ _ _ _ hrows (by decide) ⟨[2, 5], rfl, by decide⟩

end SysProg.MergeSort
