import SysProg.Lib.CLang
import SysProg.Lib.Runs

set_option autoImplicit false

/-! # `me_merge` (`1/solution/solution.c`)

Two neighbouring parts of an array are copied out and merged back. -/

namespace SysProg.MergeSort

open Runs

/-- The elements `calloc(n, sizeof(int))` makes room for. A negative `n` asks for more memory than
    there is, and `me_merge` exits. -/
def callocLength (n : Int) : C Nat :=
  if 0 ≤ n then pure n.toNat else throw (.exit (-1))

/-- A loop that copies the `n` elements from `array[start]` on to a new array. -/
def copyOut (array : List Int) (start : Int) : Nat → C (List Int)
  | 0 => pure []
  | n + 1 => do
    let v ← load array start
    let vs ← copyOut array (start + 1) n
    pure (v :: vs)

/-- A loop that copies what is left of a part back to `array[k]` and on. -/
def copyBack : List Int → Int → List Int → C (List Int)
  | [], _, array => pure array
  | v :: vs, k, array => do
    let array ← store array k v
    copyBack vs (k + 1) array

/-- The loops of `me_merge`, on what is left of `larr` from `i` on and of `rarr` from `j` on. -/
def mergeLoop : List Int → List Int → Int → List Int → C (List Int)
  | l :: larr, r :: rarr, k, array =>
    if l < r then do
      let array ← store array k l
      mergeLoop larr (r :: rarr) (k + 1) array
    else do
      let array ← store array k r
      mergeLoop (l :: larr) rarr (k + 1) array
  | larr, rarr, k, array => do
    let array ← copyBack larr k array
    copyBack rarr (k + larr.length) array
termination_by larr rarr => larr.length + rarr.length

def meMerge (array : List Int) (lhs mid rhs : Int) : C (List Int) := do
  let lsize ← int32 (mid - lhs + 1)
  let rsize ← int32 (rhs - mid)
  let ln ← callocLength lsize
  let rn ← callocLength rsize
  let larr ← copyOut array lhs ln
  let rarr ← copyOut array (mid + 1) rn
  mergeLoop larr rarr lhs array

/-! ## What the loops do -/

theorem callocLength_run (n : Nat) : callocLength n = pure n := by
  rw [callocLength, if_pos (Int.natCast_nonneg n), Int.toNat_natCast]

theorem copyOut_run {array : List Int} {p n : Nat} (h : p + n ≤ array.length) :
    copyOut array p n = pure (slice array p n) := by
  induction n generalizing p with
  | zero => simp [copyOut, slice]
  | succ n ih =>
      have hp : p < array.length := by omega
      have hslice : slice array p (n + 1) = array[p] :: slice array (p + 1) n := by
        rw [slice, slice, List.drop_eq_getElem_cons hp, List.take_succ_cons]
      have hrest : copyOut array ((p : Int) + 1) n = pure (slice array (p + 1) n) := by
        have hcast : ((p : Int) + 1) = ((p + 1 : Nat) : Int) := by omega
        rw [hcast]
        exact ih (by omega)
      rw [copyOut, load_run (List.getElem?_eq_getElem hp), pure_bind, hrest, pure_bind, hslice]

theorem copyBack_run (vs array : List Int) {p : Nat} (h : p + vs.length ≤ array.length) :
    copyBack vs p array = pure (overwrite array p vs) := by
  induction vs generalizing p array with
  | nil => rw [copyBack, overwrite_nil]
  | cons v vs ih =>
      rw [List.length_cons] at h
      have hp : p < array.length := by omega
      have hcast : ((p : Int) + 1) = ((p + 1 : Nat) : Int) := by omega
      rw [copyBack, store_run hp, pure_bind, hcast, ih _ (by rw [List.length_set]; omega),
        overwrite_cons hp]

theorem mergeLoop_run (larr rarr : List Int) {array : List Int} {p : Nat}
    (h : p + (larr.length + rarr.length) ≤ array.length) :
    mergeLoop larr rarr p array = pure (overwrite array p (merge larr rarr)) := by
  have hcast : ((p : Int) + 1) = ((p + 1 : Nat) : Int) := by omega
  induction hn : larr.length + rarr.length generalizing larr rarr array p with
  | zero =>
      have hl : larr = [] := List.length_eq_zero_iff.1 (by omega)
      have hr : rarr = [] := List.length_eq_zero_iff.1 (by omega)
      subst hl hr
      simp [mergeLoop, copyBack, merge, overwrite_nil]
  | succ n ih =>
      rcases larr with _ | ⟨l, larr⟩
      · have hcopy := copyBack_run rarr array (p := p) (by simpa using h)
        simpa [mergeLoop, copyBack, merge] using hcopy
      · rcases rarr with _ | ⟨r, rarr⟩
        · have hcopy := copyBack_run (l :: larr) array (p := p) (by simpa using h)
          simpa [mergeLoop, copyBack, merge, hcopy] using hcopy
        · simp only [List.length_cons] at h hn
          have hp : p < array.length := by omega
          rw [mergeLoop, store_run hp, store_run hp, pure_bind, pure_bind, hcast, merge_cons]
          split
          · rw [ih _ _ (by simp only [List.length_cons, List.length_set]; omega) (by omega)
              (by simp only [List.length_cons]; omega), overwrite_cons hp]
          · rw [ih _ _ (by simp only [List.length_cons, List.length_set]; omega) (by omega)
              (by simp only [List.length_cons]; omega), overwrite_cons hp]

/-- `me_merge` of the `n` elements from position `p` on with the `m` elements behind them. -/
theorem meMerge_run {array : List Int} {p n m : Nat} (h : p + n + m ≤ array.length)
    (hint : p + n + m < 2 ^ 31) :
    meMerge array p (p + n - 1) (p + n + m - 1)
      = pure (overwrite array p (merge (slice array p n) (slice array (p + n) m))) := by
  have hl : ((p : Int) + n - 1 - p + 1) = (n : Int) := by omega
  have hr : ((p : Int) + n + m - 1 - (p + n - 1)) = (m : Int) := by omega
  have hmid : ((p : Int) + n - 1 + 1) = ((p + n : Nat) : Int) := by omega
  rw [meMerge, hl, hr, hmid, int32_of_range (by omega) (by omega), pure_bind,
    int32_of_range (by omega) (by omega), pure_bind, callocLength_run, pure_bind, callocLength_run,
    pure_bind, copyOut_run (by omega), pure_bind, copyOut_run (by omega), pure_bind]
  refine mergeLoop_run _ _ ?_
  rw [slice_length, slice_length]
  omega

/-- `me_merge` of two neighbouring blocks of `w` elements, as `me_mergesort` calls it. -/
theorem meMerge_blocks {array : List Int} {p w : Nat} (hp : p < array.length) (hw : 0 < w)
    (hint : array.length < 2 ^ 31) :
    meMerge array p (min (p + w - 1) (array.length - 1)) (min (p + 2 * w - 1) (array.length - 1))
      = pure (overwrite array p (merge (slice array p w) (slice array (p + w) w))) := by
  obtain ⟨n, hn⟩ : ∃ n, n = min w (array.length - p) := ⟨_, rfl⟩
  obtain ⟨m, hm⟩ : ∃ m, m = min w (array.length - (p + w)) := ⟨_, rfl⟩
  have hmid : min ((p : Int) + w - 1) (array.length - 1) = p + n - 1 := by omega
  have hend : min ((p : Int) + 2 * w - 1) (array.length - 1) = p + n + m - 1 := by omega
  have hleft : slice array p n = slice array p w := by rw [hn, slice_min]
  have hright : slice array (p + n) m = slice array (p + w) w := by
    rcases Nat.lt_or_ge array.length (p + w) with hlt | hge
    · have hzero : m = 0 := by omega
      rw [hzero, slice, slice, List.take_zero, List.drop_eq_nil_of_le (by omega), List.take_nil]
    · have hnw : n = w := by omega
      rw [hnw, hm, slice_min]
  rw [hmid, hend, meMerge_run (by omega) (by omega), hleft, hright]

end SysProg.MergeSort
