import Mathlib.Data.List.Sort
import Mathlib.Tactic.Ring

set_option autoImplicit false

/-! # Merging ascending runs in place

Bottom-up merge sort on lists over a linear order: a list whose aligned blocks of `w` elements are
ascending becomes one whose blocks of `2 * w` elements are, by merging neighbouring blocks one pair
after the other. -/

namespace SysProg.Runs

variable {α : Type}

/-! ## Windows of a list -/

/-- The `n` elements from position `p` on, or fewer at the end of the list. -/
def slice (a : List α) (p n : Nat) : List α := (a.drop p).take n

/-- The list with the elements from position `p` on replaced by `vs`. -/
def overwrite (a : List α) (p : Nat) (vs : List α) : List α :=
  a.take p ++ vs ++ a.drop (p + vs.length)

theorem slice_length (a : List α) (p n : Nat) : (slice a p n).length = min n (a.length - p) := by
  rw [slice, List.length_take, List.length_drop]

theorem slice_get (a : List α) {p n i : Nat} (hi : i < n) : (slice a p n)[i]? = a[p + i]? := by
  rw [slice, List.getElem?_take_of_lt hi, List.getElem?_drop]

theorem slice_append (a : List α) (p n m : Nat) :
    slice a p n ++ slice a (p + n) m = slice a p (n + m) := by
  rw [slice, slice, slice, ← List.drop_drop, List.take_add]

/-- The prefix, a window and the rest of a list. -/
theorem take_slice_drop (a : List α) (p n : Nat) :
    a.take p ++ slice a p n ++ a.drop (p + n) = a := by
  rw [slice, List.append_assoc, ← List.drop_drop, List.take_append_drop, List.take_append_drop]

theorem overwrite_nil (a : List α) (p : Nat) : overwrite a p [] = a := by
  rw [overwrite, List.append_nil, List.length_nil, Nat.add_zero, List.take_append_drop]

theorem overwrite_length {a vs : List α} {p : Nat} (h : p + vs.length ≤ a.length) :
    (overwrite a p vs).length = a.length := by
  simp only [overwrite, List.length_append, List.length_take, List.length_drop]
  omega

theorem overwrite_get_in {a vs : List α} {p i : Nat} (h : p + vs.length ≤ a.length)
    (hlo : p ≤ i) (hhi : i < p + vs.length) : (overwrite a p vs)[i]? = vs[i - p]? := by
  have hp : (a.take p).length = p := by
    rw [List.length_take]
    omega
  rw [overwrite, List.getElem?_append_left (by rw [List.length_append]; omega),
    List.getElem?_append_right (by omega), hp]

theorem overwrite_get_out {a vs : List α} {p i : Nat} (h : p + vs.length ≤ a.length)
    (hi : i < p ∨ p + vs.length ≤ i) : (overwrite a p vs)[i]? = a[i]? := by
  have hp : (a.take p).length = p := by
    rw [List.length_take]
    omega
  rcases hi with hi | hi
  · rw [overwrite, List.append_assoc, List.getElem?_append_left (by omega),
      List.getElem?_take_of_lt hi]
  · rw [overwrite, List.getElem?_append_right (by rw [List.length_append]; omega),
      List.getElem?_drop, List.length_append, hp]
    congr 1
    omega

theorem slice_overwrite {a vs : List α} {p : Nat} (h : p + vs.length ≤ a.length) :
    slice (overwrite a p vs) p vs.length = vs := by
  have hp : (a.take p).length = p := by
    rw [List.length_take]
    omega
  rw [slice, overwrite, List.append_assoc, List.drop_left' hp, List.take_left' rfl]

theorem slice_min (a : List α) (p n : Nat) : slice a p (min n (a.length - p)) = slice a p n := by
  rw [slice, slice, ← List.length_drop, ← List.take_take, List.take_length]

/-- Overwriting one element after the other. -/
theorem overwrite_cons {a : List α} {p : Nat} (hp : p < a.length) (v : α) (vs : List α) :
    overwrite (a.set p v) (p + 1) vs = overwrite a p (v :: vs) := by
  have hdrop : (a.set p v).drop (p + 1 + vs.length) = a.drop (p + (v :: vs).length) := by
    rw [List.drop_set_of_lt (by omega), List.length_cons]
    congr 1
    omega
  rw [overwrite, overwrite, hdrop, List.set_eq_take_append_cons_drop, if_pos hp]
  have htake : (a.take p).length = p := by
    rw [List.length_take]
    omega
  rw [List.take_append, htake, List.take_of_length_le (by omega)]
  simp

theorem overwrite_perm {a vs : List α} {p : Nat} (h : vs.Perm (slice a p vs.length)) :
    (overwrite a p vs).Perm a := by
  have hparts := take_slice_drop a p vs.length
  calc (overwrite a p vs).Perm (a.take p ++ slice a p vs.length ++ a.drop (p + vs.length)) :=
        (h.append_left _).append_right _
    _ = a := hparts

/-! ## Merging -/

variable [LinearOrder α]

/-- Merges two lists, taking from the second one when neither head is smaller. -/
def merge (xs ys : List α) : List α := List.merge xs ys (fun x y => decide (x < y))

theorem merge_cons (x y : α) (xs ys : List α) :
    merge (x :: xs) (y :: ys)
      = if x < y then x :: merge xs (y :: ys) else y :: merge (x :: xs) ys := by
  simp only [merge, List.cons_merge_cons, decide_eq_true_eq]

theorem merge_perm (xs ys : List α) : (merge xs ys).Perm (xs ++ ys) :=
  List.merge_perm_append _

theorem merge_length (xs ys : List α) : (merge xs ys).length = xs.length + ys.length := by
  rw [(merge_perm xs ys).length_eq, List.length_append]

theorem merge_sorted {xs ys : List α} (hxs : xs.Pairwise (· ≤ ·)) (hys : ys.Pairwise (· ≤ ·)) :
    (merge xs ys).Pairwise (· ≤ ·) := by
  induction xs generalizing ys with
  | nil => simpa [merge] using hys
  | cons x xs ihx =>
      induction ys with
      | nil => simpa [merge] using hxs
      | cons y ys ihy =>
          obtain ⟨hx, hxs'⟩ := List.pairwise_cons.1 hxs
          obtain ⟨hy, hys'⟩ := List.pairwise_cons.1 hys
          rw [merge_cons]
          split
          · next hlt =>
              refine List.pairwise_cons.2 ⟨?_, ihx hxs' hys⟩
              intro z hz
              rcases List.mem_append.1 ((merge_perm _ _).mem_iff.1 hz) with hz | hz
              · exact hx z hz
              · rcases List.mem_cons.1 hz with rfl | hz
                · exact hlt.le
                · exact hlt.le.trans (hy z hz)
          · next hlt =>
              have hle := not_lt.1 hlt
              refine List.pairwise_cons.2 ⟨?_, ihy hys'⟩
              intro z hz
              rcases List.mem_append.1 ((merge_perm _ _).mem_iff.1 hz) with hz | hz
              · rcases List.mem_cons.1 hz with rfl | hz
                · exact hle
                · exact hle.trans (hx z hz)
              · exact hy z hz

/-- Merging two neighbouring windows in place. -/
theorem overwrite_merge_perm (a : List α) (p n m : Nat) :
    (overwrite a p (merge (slice a p n) (slice a (p + n) m))).Perm a := by
  refine overwrite_perm ?_
  have hlen : (merge (slice a p n) (slice a (p + n) m)).length = min (n + m) (a.length - p) := by
    rw [merge_length, slice_length, slice_length]
    omega
  rw [hlen, slice_min, ← slice_append]
  exact merge_perm _ _

/-! ## Ascending windows -/

/-- The elements at the positions from `lo` to before `hi` are ascending. -/
def Asc (a : List α) (lo hi : Nat) : Prop :=
  ∀ i j u v, lo ≤ i → i ≤ j → j < hi → a[i]? = some u → a[j]? = some v → u ≤ v

theorem Asc.congr {a a' : List α} {lo hi : Nat} (h : Asc a lo hi)
    (heq : ∀ i, lo ≤ i → i < hi → a'[i]? = a[i]?) : Asc a' lo hi := by
  intro i j u v hlo hij hhi hu hv
  rw [heq i hlo (by omega)] at hu
  rw [heq j (by omega) hhi] at hv
  exact h i j u v hlo hij hhi hu hv

/-- A window that holds at most one element. -/
theorem asc_of_le {a : List α} {lo hi : Nat} (h : min hi a.length ≤ lo + 1) : Asc a lo hi := by
  intro i j u v hlo hij hhi hu hv
  obtain ⟨hj, -⟩ := List.getElem?_eq_some_iff.1 hv
  have heq : i = j := by omega
  subst heq
  rw [hu] at hv
  exact (Option.some.inj hv).le

theorem Asc.slice_sorted {a : List α} {p n : Nat} (h : Asc a p (p + n)) :
    (slice a p n).Pairwise (· ≤ ·) := by
  rw [List.pairwise_iff_getElem]
  intro i j hi hj hij
  have hlen := slice_length a p n
  have hget : ∀ m (hm : m < (slice a p n).length), a[p + m]? = some (slice a p n)[m] := by
    intro m hm
    rw [← slice_get a (by omega : m < n), List.getElem?_eq_getElem hm]
  exact h (p + i) (p + j) _ _ (by omega) (by omega) (by omega) (hget i hi) (hget j hj)

/-- Elements of a sorted list, in order. -/
theorem sorted_get {vs : List α} (hvs : vs.Pairwise (· ≤ ·)) {i j : Nat} {u v : α} (hij : i ≤ j)
    (hu : vs[i]? = some u) (hv : vs[j]? = some v) : u ≤ v := by
  obtain ⟨hi, rfl⟩ := List.getElem?_eq_some_iff.1 hu
  obtain ⟨hj, rfl⟩ := List.getElem?_eq_some_iff.1 hv
  rcases Nat.lt_or_eq_of_le hij with hlt | rfl
  · exact List.pairwise_iff_getElem.1 hvs i j hi hj hlt
  · exact le_refl _

theorem asc_of_slice_sorted {a : List α} {p n : Nat} (h : (slice a p n).Pairwise (· ≤ ·)) :
    Asc a p (p + n) := by
  intro i j u v hlo hij hhi hu hv
  have hget : ∀ m, p ≤ m → m < p + n → (slice a p n)[m - p]? = a[m]? := by
    intro m hm hmn
    rw [slice_get a (by omega), Nat.add_sub_cancel' hm]
  rw [← hget i hlo (by omega)] at hu
  rw [← hget j (by omega) hhi] at hv
  exact sorted_get h (by omega) hu hv

theorem asc_overwrite {a vs : List α} {p n : Nat} (hvs : vs.Pairwise (· ≤ ·))
    (h : p + vs.length ≤ a.length) (hn : vs.length = n ∨ a.length = p + vs.length) :
    Asc (overwrite a p vs) p (p + n) := by
  intro i j u v hlo hij hhi hu hv
  obtain ⟨hj, -⟩ := List.getElem?_eq_some_iff.1 hv
  rw [overwrite_length h] at hj
  rw [overwrite_get_in h hlo (by omega)] at hu
  rw [overwrite_get_in h (by omega) (by omega)] at hv
  exact sorted_get hvs (by omega) hu hv

/-- An ascending list. -/
theorem sorted_of_asc {a : List α} {n : Nat} (h : Asc a 0 n) (hn : a.length ≤ n) :
    a.Pairwise (· ≤ ·) := by
  rw [List.pairwise_iff_getElem]
  intro i j hi hj hij
  exact h i j _ _ (Nat.zero_le _) (by omega) (by omega) (List.getElem?_eq_getElem hi)
    (List.getElem?_eq_getElem hj)

/-- Merging two neighbouring ascending windows in place: they become one ascending window, with the
    same elements, and everything else stays. -/
theorem merge_windows {a : List α} {p n m : Nat} (h : p + n + m ≤ a.length)
    (hleft : Asc a p (p + n)) (hright : Asc a (p + n) (p + n + m)) {a' : List α}
    (ha' : a' = overwrite a p (merge (slice a p n) (slice a (p + n) m))) :
    a'.length = a.length ∧ Asc a' p (p + (n + m)) ∧
      (slice a' p (n + m)).Perm (slice a p (n + m)) ∧
      ∀ i, i < p ∨ p + (n + m) ≤ i → a'[i]? = a[i]? := by
  subst ha'
  have hlen : (merge (slice a p n) (slice a (p + n) m)).length = n + m := by
    rw [merge_length, slice_length, slice_length]
    omega
  have hfit : p + (merge (slice a p n) (slice a (p + n) m)).length ≤ a.length := by omega
  refine ⟨overwrite_length hfit, ?_, ?_, fun i hi => overwrite_get_out hfit (by omega)⟩
  · exact asc_overwrite (merge_sorted hleft.slice_sorted hright.slice_sorted) hfit (Or.inl hlen)
  · have hslice := slice_overwrite hfit
    rw [hlen] at hslice
    rw [hslice, ← slice_append]
    exact merge_perm _ _

/-! ## A pass -/

/-- Every aligned block of `w` elements is ascending. -/
def Blocks (a : List α) (w : Nat) : Prop := ∀ q, Asc a (q * w) (q * w + w)

/-- The first `r` pairs of blocks of `w` elements are merged, the other blocks are as they were. -/
structure Pass (a : List α) (w r : Nat) : Prop where
  merged : ∀ q < r, Asc a (2 * (q * w)) (2 * (q * w) + 2 * w)
  waiting : ∀ q, 2 * r ≤ q → Asc a (q * w) (q * w + w)

theorem blocks_one (a : List α) : Blocks a 1 := fun q => asc_of_le (by omega)

theorem Blocks.pass {a : List α} {w : Nat} (h : Blocks a w) : Pass a w 0 :=
  ⟨fun q hq => absurd hq (Nat.not_lt_zero q), fun q _ => h q⟩

/-- A pass ends when at most one element waits. -/
theorem Pass.blocks {a : List α} {w r : Nat} (h : Pass a w r) (hr : a.length ≤ 2 * (r * w) + 1) :
    Blocks a (2 * w) := by
  intro q
  have hq : q * (2 * w) = 2 * (q * w) := by ring
  rw [hq]
  rcases Nat.lt_or_ge q r with hlt | hge
  · exact h.merged q hlt
  · have hle : r * w ≤ q * w := Nat.mul_le_mul_right w hge
    exact asc_of_le (by omega)

/-- Merging the next pair of blocks. -/
theorem Pass.next {a : List α} {w r : Nat} (h : Pass a w r) (hr : 2 * (r * w) ≤ a.length) :
    Pass (overwrite a (2 * (r * w)) (merge (slice a (2 * (r * w)) w)
      (slice a (2 * (r * w) + w) w))) w (r + 1) := by
  have hleft : Asc a (2 * (r * w)) (2 * (r * w) + w) := by
    have hblock := h.waiting (2 * r) (Nat.le_refl _)
    rwa [show 2 * r * w = 2 * (r * w) by ring] at hblock
  have hright : Asc a (2 * (r * w) + w) (2 * (r * w) + w + w) := by
    have hblock := h.waiting (2 * r + 1) (by omega)
    rwa [show (2 * r + 1) * w = 2 * (r * w) + w by ring] at hblock
  have hsorted := merge_sorted hleft.slice_sorted hright.slice_sorted
  have hlen : (merge (slice a (2 * (r * w)) w) (slice a (2 * (r * w) + w) w)).length
      = min (2 * w) (a.length - 2 * (r * w)) := by
    rw [merge_length, slice_length, slice_length]
    omega
  have hfit : 2 * (r * w) + (merge (slice a (2 * (r * w)) w)
      (slice a (2 * (r * w) + w) w)).length ≤ a.length := by
    omega
  refine ⟨fun q hq => ?_, fun q hq => ?_⟩
  · rcases Nat.lt_succ_iff_lt_or_eq.1 hq with hlt | rfl
    · have hle : (q + 1) * w ≤ r * w := Nat.mul_le_mul_right w hlt
      have hsucc : (q + 1) * w = q * w + w := by ring
      exact (h.merged q hlt).congr fun i _ hi => overwrite_get_out hfit (Or.inl (by omega))
    · exact asc_overwrite hsorted hfit (by omega)
  · have hle : (2 * (r + 1)) * w ≤ q * w := Nat.mul_le_mul_right w hq
    have hsucc : (2 * (r + 1)) * w = 2 * (r * w) + 2 * w := by ring
    exact (h.waiting q (by omega)).congr
      fun i hi _ => overwrite_get_out hfit (Or.inr (by omega))

end SysProg.Runs
