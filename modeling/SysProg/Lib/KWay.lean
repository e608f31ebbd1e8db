import Mathlib.Data.List.Perm.Basic
import Mathlib.Order.Defs.LinearOrder
import Mathlib.Data.List.Sort

set_option autoImplicit false

/-! # Merging many ascending lists

Taking the smallest head of some ascending lists, again and again, lists all their elements in
ascending order. -/

namespace SysProg.KWay

variable {α : Type}

theorem flatten_set_perm {rests : List (List α)} {i : Nat} {v : α} {vs : List α}
    (h : rests[i]? = some (v :: vs)) : rests.flatten.Perm (v :: (rests.set i vs).flatten) := by
  induction rests generalizing i with
  | nil => cases h
  | cons r rests ih =>
      cases i with
      | zero =>
          obtain rfl : r = v :: vs := Option.some.inj h
          exact List.Perm.refl _
      | succ i =>
          have hrec := ih (show rests[i]? = some (v :: vs) from h)
          rw [List.set_cons_succ, List.flatten_cons, List.flatten_cons]
          exact (hrec.append_left r).trans List.perm_middle

variable [LinearOrder α]

/-- `out` has been taken from the ascending lists `rows`, and `rests` is left of them. -/
structure Merging (rows : List (List α)) (out : List α) (rests : List (List α)) : Prop where
  sorted : out.Pairwise (· ≤ ·)
  perm : (out ++ rests.flatten).Perm rows.flatten
  below : ∀ x ∈ out, ∀ y ∈ rests.flatten, x ≤ y
  ascending : ∀ r ∈ rests, r.Pairwise (· ≤ ·)

theorem merging_start {rows : List (List α)} (h : ∀ r ∈ rows, r.Pairwise (· ≤ ·)) :
    Merging rows [] rows :=
  ⟨List.Pairwise.nil, List.Perm.refl _, by simp, h⟩

namespace Merging

variable {rows rests : List (List α)} {out : List α}

/-- A head that no head is smaller than is a smallest element. -/
theorem head_le (h : Merging rows out rests) {v : α}
    (hmin : ∀ (k : Nat) w ws, rests[k]? = some (w :: ws) → v ≤ w) : ∀ y ∈ rests.flatten, v ≤ y := by
  intro y hy
  obtain ⟨r, hr, hyr⟩ := List.mem_flatten.1 hy
  obtain ⟨k, hk⟩ := List.mem_iff_getElem?.1 hr
  cases r with
  | nil => cases hyr
  | cons w ws =>
      have hw := hmin k w ws hk
      rcases List.mem_cons.1 hyr with rfl | hmem
      · exact hw
      · exact hw.trans ((List.pairwise_cons.1 (h.ascending _ hr)).1 y hmem)

/-- Taking a smallest head. -/
theorem next (h : Merging rows out rests) {i : Nat} {v : α} {vs : List α}
    (hi : rests[i]? = some (v :: vs))
    (hmin : ∀ (k : Nat) w ws, rests[k]? = some (w :: ws) → v ≤ w) :
    Merging rows (out ++ [v]) (rests.set i vs) := by
  have hflat := flatten_set_perm hi
  have hle := h.head_le hmin
  have hv : v ∈ rests.flatten := hflat.mem_iff.2 (List.mem_cons_self ..)
  have hold : ∀ y ∈ (rests.set i vs).flatten, y ∈ rests.flatten := fun y hy =>
    hflat.mem_iff.2 (List.mem_cons_of_mem _ hy)
  refine ⟨?_, ?_, ?_, ?_⟩
  · refine List.pairwise_append.2 ⟨h.sorted, List.pairwise_singleton _ _, ?_⟩
    intro x hx y hy
    rw [List.mem_singleton.1 hy]
    exact h.below x hx v hv
  · rw [List.append_assoc]
    exact (hflat.symm.append_left out).trans h.perm
  · intro x hx y hy
    rcases List.mem_append.1 hx with hx | hx
    · exact h.below x hx y (hold y hy)
    · rw [List.mem_singleton.1 hx]
      exact hle y (hold y hy)
  · intro r hr
    rcases List.mem_or_eq_of_mem_set hr with hr | rfl
    · exact h.ascending r hr
    · exact (List.pairwise_cons.1 (h.ascending _ (List.mem_of_getElem? hi))).2

theorem finish (h : Merging rows out rests) (hrests : ∀ r ∈ rests, r = []) :
    out.Pairwise (· ≤ ·) ∧ out.Perm rows.flatten := by
  have hperm := h.perm
  rw [List.flatten_eq_nil_iff.2 hrests, List.append_nil] at hperm
  exact ⟨h.sorted, hperm⟩

end Merging

end SysProg.KWay
