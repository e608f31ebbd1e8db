import Mathlib.Order.Interval.Finset.Fin
import SysProg.Lib.Interleaving

set_option autoImplicit false

/-! # Producers and their collector

Each of `n` producers hands one value over to a collector, that takes the values in the order of the
producers and waits for the exit of a producer after each. How a producer and the collector hand a
value over is a protocol of the two, a `Link`: what is shown of it alone (`Delivers`) holds between all
the producers and the collector, whatever the schedule is. -/

namespace SysProg.Collect

open Interleaving
open scoped BigOperators

variable {C L R : Type}

/-- A protocol of a producer and a consumer, with the choices that a step leaves open. -/
structure Link (C L R : Type) where
  produce : L → C → Option C
  consume : L → C → Option C
  /-- The producer has exited. -/
  exited : C → Bool
  /-- The value, when the consumer has come to its end. -/
  result : C → Option R

/-- The consumer gets `value`: `inv` is an invariant with a rank, as in `Graded`. -/
structure Link.Delivers (link : Link C L R) (inv : Nat → C → Prop) (value : R) : Prop where
  produce : ∀ {r c l c'}, inv r c → link.produce l c = some c' → c' = c ∨ ∃ r' < r, inv r' c'
  consume : ∀ {r c l c'}, inv r c → link.consume l c = some c' → c' = c ∨ ∃ r' < r, inv r' c'
  value : ∀ {r c v}, inv r c → link.result c = some v → v = value
  keeps : ∀ {r c l c'}, inv r c → link.produce l c = some c' → link.result c' = link.result c
  /-- Before the consumer has ended, one of the two goes on. -/
  live : ∀ {r c}, inv r c → link.result c = none →
    ∃ l c', (link.produce l c = some c' ∨ link.consume l c = some c') ∧ ∃ r' < r, inv r' c'
  /-- Without the consumer the producer comes to its exit. -/
  drain : ∀ {r c}, inv r c → link.result c ≠ none → link.exited c = false →
    ∃ l c', link.produce l c = some c' ∧ ∃ r' < r, inv r' c'

/-! ## The producers and the collector -/

variable {n : Nat}

/-- The links, and the values the collector has got. -/
structure Sys (n : Nat) (C R : Type) where
  links : Fin n → C
  values : List R

inductive Label (n : Nat) (L : Type) where
  | produce (j : Fin n) (l : L)
  | consume (l : L)
  | wait

def Sys.setLink (s : Sys n C R) (j : Fin n) (c : C) : Sys n C R :=
  { s with links := Function.update s.links j c }

/-- How many producers have exited. -/
def Sys.exits (link : Link C L R) (s : Sys n C R) : Nat :=
  (Finset.univ.filter fun j => link.exited (s.links j) = true).card

/-- The next step of a producer or of the collector. When the collector has a value it waits for an
    exit that it has not waited for yet. -/
def step (link : Link C L R) : Label n L → Sys n C R → Option (Sys n C R)
  | .produce j l, s => (link.produce l (s.links j)).map (s.setLink j)
  | .consume l, s =>
    if h : s.values.length < n then
      match link.result (s.links ⟨s.values.length, h⟩) with
      | none => (link.consume l (s.links ⟨s.values.length, h⟩)).map (s.setLink ⟨_, h⟩)
      | some _ => none
    else none
  | .wait, s =>
    if h : s.values.length < n then
      match link.result (s.links ⟨s.values.length, h⟩) with
      | none => none
      | some v =>
        if s.values.length < s.exits link then some { s with values := s.values ++ [v] } else none
    else none

section Sound

variable {link : Link C L R} {inv : Fin n → Nat → C → Prop} {value : Fin n → R}

/-- Every link has its invariant, and the collector the values of the first links. -/
structure Inv (link : Link C L R) (inv : Fin n → Nat → C → Prop) (value : Fin n → R) (r : Nat)
    (s : Sys n C R) : Prop where
  links : ∃ rk : Fin n → Nat, (∀ j, inv j (rk j) (s.links j)) ∧
    r = ∑ j, rk j + (n - s.values.length)
  values : s.values = (List.ofFn value).take s.values.length
  length_le : s.values.length ≤ n
  done : ∀ j : Fin n, (j : Nat) < s.values.length → link.result (s.links j) ≠ none

/-- A step of one link. -/
theorem Inv.setLink {s : Sys n C R} {rk : Fin n → Nat} (hs : Inv link inv value
    (∑ j, rk j + (n - s.values.length)) s) (hrk : ∀ j, inv j (rk j) (s.links j)) {j : Fin n} {c : C}
    {r' : Nat} (hlt : r' < rk j) (hc : inv j r' c)
    (hdone : (j : Nat) < s.values.length → link.result c ≠ none) :
    ∃ r < ∑ j, rk j + (n - s.values.length), Inv link inv value r (s.setLink j c) := by
  have hsum := sum_update rk (fun r => r) j r'
  refine ⟨∑ i, Function.update rk j r' i + (n - s.values.length), by omega,
    ⟨Function.update rk j r', fun i => ?_, rfl⟩, hs.values, hs.length_le, fun i hi => ?_⟩
  · by_cases hij : i = j
    · subst hij
      simpa only [Sys.setLink, Function.update_self] using hc
    · simpa only [Sys.setLink, Function.update_of_ne hij] using hrk i
  · by_cases hij : i = j
    · subst hij
      simpa only [Sys.setLink, Function.update_self] using hdone hi
    · simpa only [Sys.setLink, Function.update_of_ne hij] using hs.done i hi

/-- A step that leaves its link as it was. -/
theorem setLink_self (s : Sys n C R) (j : Fin n) : s.setLink j (s.links j) = s := by
  rw [Sys.setLink, Function.update_eq_self]

/-- The collector gets the value of the next link. -/
theorem Inv.collect (hd : ∀ j, link.Delivers (inv j) (value j)) {s : Sys n C R} {r : Nat}
    (hs : Inv link inv value r s) (h : s.values.length < n) {v : R}
    (hv : link.result (s.links ⟨s.values.length, h⟩) = some v) :
    ∃ r' < r, Inv link inv value r' { s with values := s.values ++ [v] } := by
  obtain ⟨rk, hrk, rfl⟩ := hs.links
  have hvalue := (hd _).value (hrk _) hv
  have hlen : (s.values ++ [v]).length = s.values.length + 1 := List.length_append
  refine ⟨∑ j, rk j + (n - (s.values ++ [v]).length), by omega, ⟨rk, hrk, rfl⟩, ?_,
    by simp only [hlen]; omega, fun j hj => ?_⟩
  · have hget : (List.ofFn value)[s.values.length]? = some v := by
      rw [List.getElem?_ofFn, dif_pos h, ← hvalue]
    show s.values ++ [v] = (List.ofFn value).take (s.values ++ [v]).length
    rw [hlen, List.take_add_one, hget, Option.toList_some, ← hs.values]
  · rcases Nat.lt_succ_iff_lt_or_eq.1 (hlen ▸ hj) with hlt | heq
    · exact hs.done j hlt
    · have hj' : j = ⟨s.values.length, h⟩ := Fin.ext heq
      subst hj'
      simp [hv]

/-- A link that the collector is done with, and all before it, come to their exits. -/
theorem exits_or_drain (hd : ∀ j, link.Delivers (inv j) (value j)) {s : Sys n C R}
    {rk : Fin n → Nat} (hrk : ∀ j, inv j (rk j) (s.links j)) (j : Fin n)
    (hdone : ∀ i ≤ j, link.result (s.links i) ≠ none) :
    (j : Nat) < s.exits link ∨
      ∃ i l c', i ≤ j ∧ link.produce l (s.links i) = some c' ∧ ∃ r' < rk i, inv i r' c' := by
  by_cases hall : ∀ i ≤ j, link.exited (s.links i) = true
  · left
    have hsub : Finset.Iic j ⊆ Finset.univ.filter fun i => link.exited (s.links i) = true := by
      intro i hi
      exact Finset.mem_filter.2 ⟨Finset.mem_univ i, hall i (Finset.mem_Iic.1 hi)⟩
    have hcard := Finset.card_le_card hsub
    rw [Fin.card_Iic] at hcard
    exact hcard
  · right
    push Not at hall
    obtain ⟨i, hi, hexit⟩ := hall
    obtain ⟨l, c', hstep, hlt⟩ := (hd i).drain (hrk i) (hdone i hi) (Bool.eq_false_iff.2 hexit)
    exact ⟨i, l, c', hi, hstep, hlt⟩

/-- **The links carry over to the system.** -/
theorem graded (hd : ∀ j, link.Delivers (inv j) (value j)) :
    Graded (step link) (Inv link inv value) (fun s : Sys n C R => s.values.length = n) where
  goes := by
    intro r s l s' hs hstep
    obtain ⟨rk, hrk, rfl⟩ := hs.links
    cases l with
    | produce j l =>
        obtain ⟨c, hc, rfl⟩ := Option.map_eq_some_iff.1 hstep
        rcases (hd j).produce (hrk j) hc with rfl | ⟨r', hlt, hinv⟩
        · exact Or.inl (setLink_self s j)
        · refine Or.inr (hs.setLink hrk hlt hinv fun hj => ?_)
          rw [(hd j).keeps (hrk j) hc]
          exact hs.done j hj
    | consume l =>
        rw [step] at hstep
        split at hstep
        · split at hstep
          · obtain ⟨c, hc, rfl⟩ := Option.map_eq_some_iff.1 hstep
            rcases (hd _).consume (hrk _) hc with rfl | ⟨r', hlt, hinv⟩
            · exact Or.inl (setLink_self s _)
            · exact Or.inr (hs.setLink hrk hlt hinv fun hj => absurd hj (Nat.lt_irrefl _))
          · cases hstep
        · cases hstep
    | wait =>
        rw [step] at hstep
        split at hstep
        · next h =>
            split at hstep
            · cases hstep
            · next v hv =>
                split at hstep
                · obtain rfl := Option.some.inj hstep
                  exact Or.inr (hs.collect hd h hv)
                · cases hstep
        · cases hstep
  live := by
    intro r s hs hfinal
    have h : s.values.length < n := lt_of_le_of_ne hs.length_le hfinal
    obtain ⟨rk, hrk, rfl⟩ := hs.links
    cases hv : link.result (s.links ⟨s.values.length, h⟩) with
    | none =>
        obtain ⟨l, c, hc | hc, r', hlt, hinv⟩ := (hd _).live (hrk _) hv
        · refine ⟨.produce _ l, _, by rw [step, hc, Option.map_some], ?_⟩
          exact hs.setLink hrk hlt hinv fun hj => absurd hj (Nat.lt_irrefl _)
        · refine ⟨.consume l, s.setLink ⟨s.values.length, h⟩ c, ?_, ?_⟩
          · simp only [step, h, dite_true, hv, hc, Option.map_some]
          · exact hs.setLink hrk hlt hinv fun hj => absurd hj (Nat.lt_irrefl _)
    | some v =>
        have hdone : ∀ i ≤ (⟨s.values.length, h⟩ : Fin n), link.result (s.links i) ≠ none := by
          intro i hi
          rcases Nat.lt_or_eq_of_le (Fin.le_def.1 hi) with hlt | heq
          · exact hs.done i hlt
          · rw [show i = ⟨s.values.length, h⟩ from Fin.ext heq, hv]
            exact Option.some_ne_none v
        rcases exits_or_drain hd hrk ⟨s.values.length, h⟩ hdone with hexits |
          ⟨i, l, c, hi, hc, r', hlt, hinv⟩
        · refine ⟨.wait, { s with values := s.values ++ [v] }, ?_, hs.collect hd h hv⟩
          simp only [step, h, dite_true, hv, if_pos hexits]
        · refine ⟨.produce i l, _, by rw [step, hc, Option.map_some], ?_⟩
          refine hs.setLink hrk hlt hinv fun _ => ?_
          rw [(hd i).keeps (hrk i) hc]
          exact hdone i hi

/-- The start of a system, and the rank of its invariant. -/
theorem inv_start (link : Link C L R) (value : Fin n → R) {links : Fin n → C} {rk : Fin n → Nat}
    (h : ∀ j, inv j (rk j) (links j)) :
    Inv link inv value (∑ j, rk j + n) { links := links, values := [] } :=
  ⟨⟨rk, h, rfl⟩, rfl, Nat.zero_le _, fun _ hj => absurd hj (Nat.not_lt_zero _)⟩

/-- The collector has the value of every producer at its end. -/
theorem Inv.values_eq {s : Sys n C R} {r : Nat} (hs : Inv link inv value r s)
    (hfinal : s.values.length = n) : s.values = List.ofFn value := by
  rw [hs.values, hfinal]
  exact List.take_of_length_le (List.length_ofFn.le)

/-- All that a schedule leaves open: the runs come to their end after a bounded number of steps that
    change the state, and there the collector has the values. -/
structure Collects (link : Link C L R) (s₀ : Sys n C R) (values : List R) : Prop where
  values : ∀ s, Reaches (step link) (fun _ _ => True) s₀ s → s.values.length = n → s.values = values
  ends : ∀ s, Reaches (step link) (fun _ _ => True) s₀ s →
    ∃ s', Reaches (step link) (fun _ _ => True) s s' ∧ s'.values.length = n
  bound : ∃ N, ∀ k s, Works (step link) s₀ k s → k ≤ N

/-- **The collector gets the values of the producers.** -/
theorem collects (hd : ∀ j, link.Delivers (inv j) (value j)) {links : Fin n → C} {rk : Fin n → Nat}
    (h : ∀ j, inv j (rk j) (links j)) :
    Collects link { links := links, values := [] } (List.ofFn value) := by
  have hgraded := graded hd
  have hstart := inv_start link value h
  refine ⟨fun s hs hfinal => ?_, fun s hs => ?_, ⟨_, fun k s hs => hgraded.works_le hstart hs⟩⟩
  · obtain ⟨r, hinv⟩ := hgraded.reaches hstart hs
    exact hinv.values_eq hfinal
  · obtain ⟨r, hinv⟩ := hgraded.reaches hstart hs
    exact hgraded.ends hinv

end Sound

end SysProg.Collect
