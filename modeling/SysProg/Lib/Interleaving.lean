import Mathlib.Algebra.BigOperators.Group.Finset.Piecewise
import Mathlib.Algebra.Order.BigOperators.Group.Finset

set_option autoImplicit false

/-! # Interleavings

A system in which one thread after the other makes a step: a label says which thread goes on and what
it does, and `step` is the state after it, if this step is possible. -/

namespace SysProg.Interleaving

open scoped BigOperators

variable {S L : Type}

/-- The states reached from `s₀` by steps that all meet `ok`. -/
inductive Reaches (step : L → S → Option S) (ok : S → L → Prop) (s₀ : S) : S → Prop where
  | refl : Reaches step ok s₀ s₀
  | tail {s s' : S} {l : L} (h : Reaches step ok s₀ s) (hok : ok s l) (hstep : step l s = some s') :
      Reaches step ok s₀ s'

/-- What every step that meets `ok` keeps holds in every state reached. -/
theorem Reaches.invariant {step : L → S → Option S} {ok : S → L → Prop} {s₀ s : S} (inv : S → Prop)
    (hstep : ∀ s l s', inv s → ok s l → step l s = some s' → inv s') (h₀ : inv s₀)
    (h : Reaches step ok s₀ s) : inv s := by
  induction h with
  | refl => exact h₀
  | tail _ hok hgoes ih => exact hstep _ _ _ ih hok hgoes

/-- A step before a run. -/
theorem Reaches.head {step : L → S → Option S} {s₀ s1 s : S} {l : L} (hstep : step l s₀ = some s1)
    (h : Reaches step (fun _ _ => True) s1 s) : Reaches step (fun _ _ => True) s₀ s := by
  induction h with
  | refl => exact .tail .refl trivial hstep
  | tail _ _ hgoes ih => exact .tail ih trivial hgoes

/-- The state after the steps of a schedule. -/
def after (step : L → S → Option S) : List L → S → Option S
  | [], s => some s
  | l :: ls, s => (step l s).bind (after step ls)

theorem reaches_of_after {step : L → S → Option S} {s₀ : S} (ls : List L) {s s' : S}
    (h : Reaches step (fun _ _ => True) s₀ s) (hafter : after step ls s = some s') :
    Reaches step (fun _ _ => True) s₀ s' := by
  induction ls generalizing s with
  | nil =>
      obtain rfl := Option.some.inj hafter
      exact h
  | cons l ls ih =>
      obtain ⟨s1, hstep, hrest⟩ := Option.bind_eq_some_iff.1 hafter
      exact ih (.tail h trivial hstep) hrest

/-! ## Runs that come to an end -/

/-- The states reached from `s₀` by `k` steps that change the state, between steps that do not. -/
inductive Works (step : L → S → Option S) (s₀ : S) : Nat → S → Prop where
  | refl : Works step s₀ 0 s₀
  | idle {k : Nat} {s : S} {l : L} (h : Works step s₀ k s) (hstep : step l s = some s) :
      Works step s₀ k s
  | work {k : Nat} {s s' : S} {l : L} (h : Works step s₀ k s) (hne : s' ≠ s)
      (hstep : step l s = some s') : Works step s₀ (k + 1) s'

/-- Where before the end there is always a step that makes the rank smaller, the end can be reached. -/
theorem exists_final {step : L → S → Option S} {inv : Nat → S → Prop} {final : S → Prop}
    (live : ∀ {r s}, inv r s → ¬ final s → ∃ l s', step l s = some s' ∧ ∃ r' < r, inv r' s') {r : Nat}
    {s : S} (hs : inv r s) : ∃ s', Reaches step (fun _ _ => True) s s' ∧ final s' := by
  induction r using Nat.strong_induction_on generalizing s with
  | _ r ih =>
      by_cases hfinal : final s
      · exact ⟨s, .refl, hfinal⟩
      · obtain ⟨l, s1, hstep, r', hlt, hs1⟩ := live hs hfinal
        obtain ⟨s', hreach, hs'⟩ := ih r' hlt hs1
        exact ⟨s', .head hstep hreach, hs'⟩

/-- An invariant with a rank. A step that changes the state makes the rank smaller, and before the end
    there is always such a step. -/
structure Graded (step : L → S → Option S) (inv : Nat → S → Prop) (final : S → Prop) : Prop where
  goes : ∀ {r s l s'}, inv r s → step l s = some s' → s' = s ∨ ∃ r' < r, inv r' s'
  live : ∀ {r s}, inv r s → ¬ final s → ∃ l s', step l s = some s' ∧ ∃ r' < r, inv r' s'

namespace Graded

variable {step : L → S → Option S} {inv : Nat → S → Prop} {final : S → Prop} {s₀ s : S} {r : Nat}

theorem reaches (h : Graded step inv final) (h₀ : inv r s₀)
    (hreach : Reaches step (fun _ _ => True) s₀ s) : ∃ r', inv r' s := by
  refine hreach.invariant (fun s => ∃ r', inv r' s) ?_ ⟨r, h₀⟩
  rintro s l s' ⟨r', hs⟩ - hstep
  rcases h.goes hs hstep with rfl | ⟨r'', -, hs'⟩
  · exact ⟨r', hs⟩
  · exact ⟨r'', hs'⟩

/-- Whatever the schedule, the state does not change more often than the rank allows. -/
theorem works_le (h : Graded step inv final) (h₀ : inv r s₀) {k : Nat} (hrun : Works step s₀ k s) :
    k ≤ r := by
  have hrank : ∃ r', inv r' s ∧ k + r' ≤ r := by
    induction hrun with
    | refl => exact ⟨r, h₀, by omega⟩
    | idle _ _ ih => exact ih
    | work _ hne hstep ih =>
        obtain ⟨r', hs, hle⟩ := ih
        rcases h.goes hs hstep with heq | ⟨r'', hlt, hs'⟩
        · exact absurd heq hne
        · exact ⟨r'', hs', by omega⟩
  obtain ⟨r', -, hle⟩ := hrank
  omega

/-- The end is never out of reach. -/
theorem ends (h : Graded step inv final) (hs : inv r s) :
    ∃ s', Reaches step (fun _ _ => True) s s' ∧ final s' :=
  exists_final (fun hs => h.live hs) hs

end Graded

/-! ## Sums over the threads -/

/-- A sum over the threads, when the part of one of them changes. -/
theorem sum_update {T P : Type} [Fintype T] [DecidableEq T] (pc : T → P) (weight : P → Nat) (t : T)
    (p : P) :
    ∑ u, weight (Function.update pc t p u) + weight (pc t) = ∑ u, weight (pc u) + weight p := by
  have hnew := Finset.add_sum_erase Finset.univ (fun u => weight (Function.update pc t p u))
    (Finset.mem_univ t)
  have hold := Finset.add_sum_erase Finset.univ (fun u => weight (pc u)) (Finset.mem_univ t)
  have hrest : ∑ u ∈ Finset.univ.erase t, weight (Function.update pc t p u)
      = ∑ u ∈ Finset.univ.erase t, weight (pc u) := by
    refine Finset.sum_congr rfl fun u hu => ?_
    rw [Function.update_of_ne (Finset.ne_of_mem_erase hu)]
  simp only [Function.update_self] at hnew
  omega

/-- Where the threads hold one thing at most, they do not hold it twice. -/
theorem eq_zero_of_sum_le_one {T : Type} [Fintype T] [DecidableEq T] {weight : T → Nat}
    (hsum : ∑ u, weight u ≤ 1) {t u : T} (ht : weight t ≠ 0) (hu : u ≠ t) : weight u = 0 := by
  have hsplit := Finset.add_sum_erase Finset.univ weight (Finset.mem_univ t)
  have hle := Finset.single_le_sum (f := weight) (s := Finset.univ.erase t) (fun _ _ => Nat.zero_le _)
    (Finset.mem_erase.2 ⟨hu, Finset.mem_univ u⟩)
  omega

end SysProg.Interleaving
