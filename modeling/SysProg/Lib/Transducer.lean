import Mathlib.Data.List.Basic

set_option autoImplicit false

/-! # Sequential transducers

A deterministic machine that reads symbols one at a time, emits a list of results at each of them
and flushes what is pending at the end of its input. -/

namespace SysProg

/-- A transducer with states `σ`, input symbols `α` and results `β`. -/
structure Transducer (σ α β : Type) where
  step : σ → α → σ × List β
  /-- What is emitted when the input ends in this state. -/
  flush : σ → List β

namespace Transducer

variable {σ α β : Type} (T : Transducer σ α β)

/-- The state after reading a word. -/
def state (q : σ) : List α → σ
  | [] => q
  | x :: xs => state (T.step q x).1 xs

/-- What is emitted while reading a word, without the final flush. -/
def emitted (q : σ) : List α → List β
  | [] => []
  | x :: xs => (T.step q x).2 ++ emitted (T.step q x).1 xs

/-- What is emitted on a whole input. -/
def output (q : σ) : List α → List β
  | [] => T.flush q
  | x :: xs => (T.step q x).2 ++ output (T.step q x).1 xs

@[simp] theorem state_nil (q : σ) : T.state q [] = q := rfl

@[simp] theorem state_cons (q : σ) (x : α) (xs : List α) :
    T.state q (x :: xs) = T.state (T.step q x).1 xs := rfl

@[simp] theorem emitted_cons (q : σ) (x : α) (xs : List α) :
    T.emitted q (x :: xs) = (T.step q x).2 ++ T.emitted (T.step q x).1 xs := rfl

@[simp] theorem output_nil (q : σ) : T.output q [] = T.flush q := rfl

@[simp] theorem output_cons (q : σ) (x : α) (xs : List α) :
    T.output q (x :: xs) = (T.step q x).2 ++ T.output (T.step q x).1 xs := rfl

theorem state_append (q : σ) (xs ys : List α) :
    T.state q (xs ++ ys) = T.state (T.state q xs) ys := by
  induction xs generalizing q with
  | nil => rfl
  | cons x xs ih => exact ih (T.step q x).1

/-- The output splits at any point of the input. -/
theorem output_append (q : σ) (xs ys : List α) :
    T.output q (xs ++ ys) = T.emitted q xs ++ T.output (T.state q xs) ys := by
  induction xs generalizing q with
  | nil => rfl
  | cons x xs ih =>
      rw [List.cons_append, output_cons, ih, emitted_cons, state_cons, List.append_assoc]

theorem output_eq (q : σ) (xs : List α) :
    T.output q xs = T.emitted q xs ++ T.flush (T.state q xs) := by
  have h := T.output_append q xs []
  rwa [List.append_nil, output_nil] at h

/-- When what follows `xs` first flushes its pending results and then continues from `q'` on `zs`,
    the two outputs compose. -/
theorem output_append_of_flush (q q' : σ) (xs ys zs : List α)
    (h : T.output (T.state q xs) ys = T.flush (T.state q xs) ++ T.output q' zs) :
    T.output q (xs ++ ys) = T.output q xs ++ T.output q' zs := by
  rw [output_append, h, T.output_eq q xs, List.append_assoc]

/-- An invariant of the single steps holds after every word. -/
theorem state_invariant {P : σ → Prop} {A : α → Prop}
    (hstep : ∀ q x, P q → A x → P (T.step q x).1) (q : σ) (hq : P q) (xs : List α)
    (hxs : ∀ x ∈ xs, A x) : P (T.state q xs) := by
  induction xs generalizing q with
  | nil => exact hq
  | cons x xs ih =>
      exact ih _ (hstep q x hq (hxs x (List.mem_cons_self ..)))
        (fun y hy => hxs y (List.mem_cons_of_mem _ hy))

/-- A machine with at most `credit q` results pending in a state `q` emits, but for those, no more
    results than it reads symbols. -/
theorem output_length_le {credit : σ → Nat}
    (hstep : ∀ q x, (T.step q x).2.length + credit (T.step q x).1 ≤ credit q + 1)
    (hflush : ∀ q, (T.flush q).length ≤ credit q) (q : σ) (xs : List α) :
    (T.output q xs).length ≤ credit q + xs.length := by
  induction xs generalizing q with
  | nil => exact hflush q
  | cons x xs ih =>
      have hx := hstep q x
      have hxs := ih (T.step q x).1
      rw [output_cons, List.length_append, List.length_cons]
      omega

end Transducer

end SysProg
