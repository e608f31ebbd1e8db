import SysProg.MergeSort.Merge

set_option autoImplicit false

/-! # `me_merge` with its indices (`1/solution/solution.c`)

`meMerge` walks over the two parts as lists. Here the same function keeps the variables `i`, `j` and
`k` of the source: every `int` expression is evaluated in 32 bits, and every element of `array`,
`larr` and `rarr` is read and written through its index. -/

namespace SysProg.MergeSort

open Runs

/-- The loop that fills a part, with `index i` for the index it reads `array` at. -/
def copyPart (array : List Int) (index : Int → C Int) (size : Int) (part : List Int) (i : Int) :
    C (List Int) :=
  if i < size then do
    let src ← index i
    let v ← load array src
    let part ← store part i v
    let _ ← int32 (i + 1)
    copyPart array index size part (i + 1)
  else pure part
termination_by (size - i).toNat

/-- The variables of `me_merge` after it has filled `larr` and `rarr`. -/
structure MergeVars where
  i : Int
  j : Int
  k : Int
  array : List Int

/-- `while (i < lsize && j < rsize)`. -/
def mergeWhile (larr rarr : List Int) (lsize rsize i j k : Int) (array : List Int) : C MergeVars :=
  if i < lsize ∧ j < rsize then do
    let l ← load larr i
    let r ← load rarr j
    if l < r then do
      let array ← store array k l
      let _ ← int32 (i + 1)
      let _ ← int32 (k + 1)
      mergeWhile larr rarr lsize rsize (i + 1) j (k + 1) array
    else do
      let array ← store array k r
      let _ ← int32 (j + 1)
      let _ ← int32 (k + 1)
      mergeWhile larr rarr lsize rsize i (j + 1) (k + 1) array
  else pure ⟨i, j, k, array⟩
termination_by (lsize - i).toNat + (rsize - j).toNat

/-- A loop that copies what is left of a part back to `array[k]` and on, and the `k` after it. -/
def copyRest (part : List Int) (size i k : Int) (array : List Int) : C (Int × List Int) :=
  if i < size then do
    let v ← load part i
    let array ← store array k v
    let _ ← int32 (i + 1)
    let _ ← int32 (k + 1)
    copyRest part size (i + 1) (k + 1) array
  else pure (k, array)
termination_by (size - i).toNat

/-- The loops of `me_merge` behind the first one. -/
def mergeRest (larr rarr : List Int) (lsize rsize : Int) (v : MergeVars) : C (List Int) := do
  let (k, array) ← copyRest larr lsize v.i v.k v.array
  let (_, array) ← copyRest rarr rsize v.j k array
  pure array

/-- `me_merge`. -/
def meMergeIndexed (array : List Int) (lhs mid rhs : Int) : C (List Int) := do
  let width ← int32 (mid - lhs)
  let lsize ← int32 (width + 1)
  let rsize ← int32 (rhs - mid)
  let ln ← callocLength lsize
  let rn ← callocLength rsize
  let larr ← copyPart array (fun i => int32 (lhs + i)) lsize (List.replicate ln 0) 0
  let rarr ← copyPart array (fun i => do
    let src ← int32 (mid + i)
    int32 (src + 1)) rsize (List.replicate rn 0) 0
  let v ← mergeWhile larr rarr lsize rsize 0 0 lhs array
  mergeRest larr rarr lsize rsize v

/-! ## The loops stay in range -/

theorem copyPart_run {a : List Int} {f : Int → C Int} {p n : Nat}
    (hindex : ∀ i : Nat, i < n → f i = pure ((p + i : Nat) : Int))
    (hfit : p + n ≤ a.length) (hn : n < 2 ^ 31) {q : List Int} (hpart : q.length = n)
    {i : Nat} (hi : i ≤ n) :
    copyPart a f n q i = pure (q.take i ++ slice a (p + i) (n - i)) := by
  induction hk : n - i generalizing i q with
  | zero =>
      rw [copyPart, if_neg (by omega), slice, List.take_zero, List.append_nil,
        List.take_of_length_le (by omega)]
  | succ k ih =>
      have hget : p + i < a.length := by omega
      have hset : (q.set i a[p + i]).take (i + 1) = q.take i ++ [a[p + i]] := by
        rw [List.take_add_one, List.take_set_of_le (Nat.le_refl i),
          List.getElem?_set_self (by omega)]
        rfl
      have hslice : slice a (p + i) (k + 1) = a[p + i] :: slice a (p + (i + 1)) k := by
        rw [slice, slice, List.drop_eq_getElem_cons hget, List.take_succ_cons, Nat.add_assoc]
      have hrest := ih (q := q.set i a[p + i]) (by rw [List.length_set, hpart])
        (i := i + 1) (by omega) (by omega)
      rw [copyPart, if_pos (by omega), hindex i (by omega), pure_bind,
        load_run (List.getElem?_eq_getElem hget), pure_bind, store_run (by omega), pure_bind,
        int32_of_range (by omega) (by omega), pure_bind]
      refine hrest.trans ?_
      rw [hset, hslice, List.append_assoc, List.singleton_append]

theorem copyRest_run {q : List Int} {i k : Nat} (hi : i ≤ q.length) {a : List Int}
    (hfit : k + (q.length - i) ≤ a.length) (hint : k + (q.length - i) < 2 ^ 31)
    (hpart : q.length < 2 ^ 31) :
    copyRest q q.length i k a
      = pure (((k + (q.length - i) : Nat) : Int), overwrite a k (q.drop i)) := by
  induction hn : q.length - i generalizing i k a with
  | zero =>
      rw [copyRest, if_neg (by omega), List.drop_eq_nil_of_le (by omega), overwrite_nil]
      rfl
  | succ n ih =>
      have hget : i < q.length := by omega
      have hrest := ih (i := i + 1) (k := k + 1) (by omega) (a := a.set k q[i])
        (by rw [List.length_set]; omega) (by omega) (by omega)
      rw [copyRest, if_pos (by omega), load_run (List.getElem?_eq_getElem hget), pure_bind,
        store_run (by omega), pure_bind, int32_of_range (by omega) (by omega), pure_bind,
        int32_of_range (by omega) (by omega), pure_bind]
      refine hrest.trans ?_
      rw [List.drop_eq_getElem_cons hget, overwrite_cons (by omega), pure_inj, Prod.mk.injEq]
      exact ⟨by omega, rfl⟩

/-- The last two loops copy back what one of the parts still holds. -/
theorem mergeRest_run {l r : List Int} {i j k : Nat} (hi : i ≤ l.length)
    (hj : j ≤ r.length) (hdone : l.length = i ∨ r.length = j) {a : List Int}
    (hfit : k + ((l.length - i) + (r.length - j)) ≤ a.length)
    (hint : k + ((l.length - i) + (r.length - j)) < 2 ^ 31) (hl : l.length < 2 ^ 31)
    (hr : r.length < 2 ^ 31) :
    mergeRest l r l.length r.length ⟨i, j, k, a⟩
      = pure (overwrite a k (merge (l.drop i) (r.drop j))) := by
  have hleft := copyRest_run hi (k := k) (a := a) (by omega) (by omega) hl
  rw [mergeRest, hleft, pure_bind]
  rcases hdone with rfl | rfl
  · have hright := copyRest_run hj (k := k) (a := a) (by omega) (by omega) hr
    simp only [List.drop_length, overwrite_nil, Nat.sub_self, Nat.add_zero, hright, pure_bind]
    simp [merge]
  · have hlen : (overwrite a k (l.drop i)).length = a.length := by
      refine overwrite_length ?_
      rw [List.length_drop]
      omega
    have hright := copyRest_run hj (k := k + (l.length - i))
      (a := overwrite a k (l.drop i)) (by omega) (by omega) hr
    simp only [hright, pure_bind, List.drop_length, overwrite_nil]
    simp [merge]

/-- The loops merge what the two parts still hold. -/
theorem mergeWhile_run {l r : List Int} {i j k : Nat} (hi : i ≤ l.length)
    (hj : j ≤ r.length) {a : List Int}
    (hfit : k + ((l.length - i) + (r.length - j)) ≤ a.length)
    (hint : k + ((l.length - i) + (r.length - j)) < 2 ^ 31) (hl : l.length < 2 ^ 31)
    (hr : r.length < 2 ^ 31) :
    (do let v ← mergeWhile l r l.length r.length i j k a
        mergeRest l r l.length r.length v)
      = pure (overwrite a k (merge (l.drop i) (r.drop j))) := by
  induction hn : (l.length - i) + (r.length - j) generalizing i j k a with
  | zero =>
      rw [mergeWhile, if_neg (by omega), pure_bind]
      exact mergeRest_run hi hj (by omega) hfit hint hl hr
  | succ n ih =>
      rw [mergeWhile]
      split
      · next hlt =>
          have hil : i < l.length := by omega
          have hjr : j < r.length := by omega
          have hset : ∀ v : Int, (a.set k v).length = a.length := fun v => List.length_set
          rw [load_run (List.getElem?_eq_getElem hil), pure_bind,
            load_run (List.getElem?_eq_getElem hjr), pure_bind,
            List.drop_eq_getElem_cons hil, List.drop_eq_getElem_cons hjr, merge_cons]
          split
          · rw [store_run (by omega), pure_bind, int32_of_range (by omega) (by omega), pure_bind,
              int32_of_range (by omega) (by omega), pure_bind, ← overwrite_cons (by omega),
              ← List.drop_eq_getElem_cons hjr]
            exact ih (i := i + 1) (k := k + 1) (by omega) hj (by rw [hset]; omega)
              (by omega) (by omega)
          · rw [store_run (by omega), pure_bind, int32_of_range (by omega) (by omega), pure_bind,
              int32_of_range (by omega) (by omega), pure_bind, ← overwrite_cons (by omega),
              ← List.drop_eq_getElem_cons hil]
            exact ih (j := j + 1) (k := k + 1) hi (by omega) (by rw [hset]; omega)
              (by omega) (by omega)
      · next hend =>
          rw [pure_bind]
          exact mergeRest_run hi hj (by omega) hfit hint hl hr

/-- **`me_merge` stays in range**: on neighbouring parts of `n` and `m` elements no expression
    overflows, no index is out of bounds, and the result is that of `meMerge`. -/
theorem meMergeIndexed_run {a : List Int} {p n m : Nat} (hn : 0 < n)
    (h : p + n + m ≤ a.length) (hint : p + n + m < 2 ^ 31) :
    meMergeIndexed a p (p + n - 1) (p + n + m - 1)
      = meMerge a p (p + n - 1) (p + n + m - 1) := by
  have hl : ((p : Int) + n - 1 - p) + 1 = (n : Int) := by omega
  have hr : ((p : Int) + n + m - 1 - (p + n - 1)) = (m : Int) := by omega
  have hleft := copyPart_run (a := a) (f := fun i => int32 ((p : Int) + i)) (p := p)
    (n := n) (fun i hi => int32_of_range (by omega) (by omega)) (by omega) (by omega)
    (q := List.replicate n 0) (List.length_replicate ..) (Nat.zero_le n)
  have hright := copyPart_run (a := a) (f := fun i => do
      let src ← int32 ((p : Int) + n - 1 + i)
      int32 (src + 1)) (p := p + n) (n := m)
    (fun i hi => by
      rw [int32_of_range (by omega) (by omega), pure_bind, int32_of_range (by omega) (by omega),
        pure_inj]
      omega) (by omega) (by omega) (q := List.replicate m 0) (List.length_replicate ..)
    (Nat.zero_le m)
  have hln : (slice a p n).length = n := by rw [slice_length]; omega
  have hrn : (slice a (p + n) m).length = m := by rw [slice_length]; omega
  have hloops := mergeWhile_run (l := slice a p n) (r := slice a (p + n) m)
    (Nat.zero_le _) (Nat.zero_le _) (a := a) (k := p) (by omega) (by omega) (by omega) (by omega)
  rw [hln, hrn] at hloops
  rw [meMerge_run h hint, meMergeIndexed, int32_of_range (by omega) (by omega), pure_bind, hl, hr,
    int32_of_range (by omega) (by omega), pure_bind, int32_of_range (by omega) (by omega),
    pure_bind, callocLength_run, pure_bind, callocLength_run, pure_bind]
  simp only [Nat.cast_zero, List.take_zero, List.nil_append, Nat.add_zero, Nat.sub_zero,
    List.drop_zero] at hleft hright hloops
  rw [hleft, pure_bind, hright, pure_bind]
  exact hloops

/-- **The merge step**: two neighbouring nondecreasing parts become one, with the same elements, and
    the other elements stay. `rhs + 1` is an `int`, as the number of elements is. -/
theorem meMergeIndexed_merges {array : List Int} {lhs mid rhs : Nat} (hlhs : lhs ≤ mid)
    (hmid : mid ≤ rhs) (hrhs : rhs < array.length) (hint : rhs + 1 < 2 ^ 31)
    (hleft : Asc array lhs (mid + 1)) (hright : Asc array (mid + 1) (rhs + 1)) :
    ∃ array', meMergeIndexed array lhs mid rhs = pure array' ∧ array'.length = array.length ∧
      Asc array' lhs (rhs + 1) ∧
      (slice array' lhs (rhs + 1 - lhs)).Perm (slice array lhs (rhs + 1 - lhs)) ∧
      ∀ i, i < lhs ∨ rhs < i → array'[i]? = array[i]? := by
  obtain ⟨n, rfl⟩ := Nat.exists_eq_add_of_le hlhs
  obtain ⟨m, rfl⟩ := Nat.exists_eq_add_of_le hmid
  have hmidInt : ((lhs + n : Nat) : Int) = (lhs : Int) + ((n + 1 : Nat) : Int) - 1 := by omega
  have hrhsInt : ((lhs + n + m : Nat) : Int)
      = (lhs : Int) + ((n + 1 : Nat) : Int) + (m : Int) - 1 := by omega
  have hlen : lhs + n + m + 1 - lhs = n + 1 + m := by omega
  have hend : lhs + n + m + 1 = lhs + (n + 1) + m := by omega
  obtain ⟨hlength, hasc, hperm, hother⟩ := merge_windows (p := lhs) (n := n + 1) (m := m)
    (by omega) hleft (hend ▸ hright) rfl
  refine ⟨_, ?_, hlength, ?_, ?_, fun i hi => hother i (by omega)⟩
  · rw [hmidInt, hrhsInt, meMergeIndexed_run (by omega) (by omega) (by omega),
      meMerge_run (by omega) (by omega)]
  · rw [hend, Nat.add_assoc]
    exact hasc
  · rw [hlen]
    exact hperm

/-- Two parts with a tie, between elements that stay. -/
theorem meMergeIndexed_merges_tie :
    ∃ array', meMergeIndexed [9, 1, 4, 1, 2, 0] 1 2 4 = pure array' ∧ Asc array' 1 5 ∧
      array'[0]? = some 9 ∧ array'[5]? = some 0 := by
  have hleft : Asc ([9, 1, 4, 1, 2, 0] : List Int) 1 (2 + 1) :=
    asc_of_slice_sorted (p := 1) (n := 2) (by decide)
  have hright : Asc ([9, 1, 4, 1, 2, 0] : List Int) (2 + 1) (4 + 1) :=
    asc_of_slice_sorted (p := 3) (n := 2) (by decide)
  obtain ⟨array', hrun, -, hasc, -, hother⟩ := meMergeIndexed_merges (by decide) (by decide)
    (by decide) (by decide) hleft hright
  exact ⟨array', hrun, hasc, hother 0 (Or.inl (by decide)), hother 5 (Or.inr (by decide))⟩

end SysProg.MergeSort
