import Mathlib.Logic.Relation

set_option autoImplicit false

/-! # Runs of a deterministic system

A system is a step function: from each state it goes on in another one, or has halted, or stops with
an error. `Reaches` is the reflexive transitive closure of its steps, and `Simulation` relates two
systems that go on, halt and stop together. `Finishes` is about a computation that waits now and then
while others change its state. -/

namespace SysProg.Run

variable {S T E : Type}

/-- `step` goes on from `s` in `t`. -/
def Goes (step : S → Except E (Option S)) (s t : S) : Prop := step s = .ok (some t)

/-- The states of the run of `step` from `s`. -/
abbrev Reaches (step : S → Except E (Option S)) : S → S → Prop := Relation.ReflTransGen (Goes step)

/-- The state after `n` steps, or after the last one. -/
def after (step : S → Except E (Option S)) : Nat → S → S
  | 0, s => s
  | n + 1, s =>
    match step s with
    | .ok (some t) => after step n t
    | _ => s

theorem after_succ_of_goes {step : S → Except E (Option S)} {s t : S} (h : Goes step s t) (n : Nat) :
    after step (n + 1) s = after step n t := by
  rw [after, show step s = .ok (some t) from h]

theorem after_reaches (step : S → Except E (Option S)) (n : Nat) (s : S) :
    Reaches step s (after step n s) := by
  induction n generalizing s with
  | zero => exact .refl
  | succ n ih =>
      unfold after
      split
      · next t ht => exact .head ht (ih t)
      · exact .refl

/-- When a run has halted after `m` steps, it has no other states. -/
theorem Reaches.exists_after {step : S → Except E (Option S)} {s t : S} (h : Reaches step s t)
    {m : Nat} (hhalt : step (after step m s) = .ok none) : ∃ n ≤ m, t = after step n s := by
  induction m generalizing s with
  | zero =>
      rcases Relation.ReflTransGen.cases_head h with rfl | ⟨u, hgoes, -⟩
      · exact ⟨0, Nat.le_refl _, rfl⟩
      · rw [after, show step s = .ok (some u) from hgoes] at hhalt
        cases hhalt
  | succ m ih =>
      rcases Relation.ReflTransGen.cases_head h with rfl | ⟨u, hgoes, hut⟩
      · exact ⟨0, Nat.zero_le _, rfl⟩
      · rw [after_succ_of_goes hgoes] at hhalt
        obtain ⟨n, hn, ht⟩ := ih hut hhalt
        exact ⟨n + 1, Nat.succ_le_succ hn, by rw [after_succ_of_goes hgoes, ht]⟩

/-- Of two states of one run, one is reached from the other. -/
theorem Reaches.total {step : S → Except E (Option S)} {s t u : S} (ht : Reaches step s t)
    (hu : Reaches step s u) : Reaches step t u ∨ Reaches step u t := by
  refine Relation.ReflTransGen.total_of_right_unique ?_ ht hu
  intro a b c hb hc
  have heq : (.ok (some b) : Except E (Option S)) = .ok (some c) := hb.symm.trans hc
  cases heq
  rfl

/-- A run that keeps `inv` and makes some rank smaller with every step reaches a state with `goal`. -/
theorem reaches_goal (step : S → Except E (Option S)) (inv goal : S → Prop) (rank : S → Nat)
    (h : ∀ t, inv t → ∃ t', Goes step t t' ∧ (goal t' ∨ (inv t' ∧ rank t' < rank t))) {s : S}
    (hs : inv s) : ∃ t, Reaches step s t ∧ goal t := by
  obtain ⟨n, hn⟩ : ∃ n, rank s < n := ⟨_, Nat.lt_succ_self _⟩
  induction n generalizing s with
  | zero => exact absurd hn (Nat.not_lt_zero _)
  | succ n ih =>
      obtain ⟨t, hgoes, hnext⟩ := h s hs
      rcases hnext with hgoal | ⟨ht, hlt⟩
      · exact ⟨t, .single hgoes, hgoal⟩
      · obtain ⟨u, htu, hu⟩ := ih ht (by omega)
        exact ⟨u, .head hgoes htu, hu⟩

/-- A run reaches a state with `goal` when every step before goes on and makes some rank smaller. -/
theorem exists_goal (step : S → Except E (Option S)) (s : S) (goal : S → Prop) (rank : S → Nat)
    (hs : ¬ goal s) (h : ∀ t, Reaches step s t → ¬ goal t →
      ∃ t', Goes step t t' ∧ (goal t' ∨ rank t' < rank t)) :
    ∃ t t', Reaches step s t ∧ ¬ goal t ∧ Goes step t t' ∧ goal t' := by
  obtain ⟨t', -, t, ht, hgoal, hgoes, hgoal'⟩ := reaches_goal step
    (fun t => Reaches step s t ∧ ¬ goal t)
    (fun t' => ∃ t, Reaches step s t ∧ ¬ goal t ∧ Goes step t t' ∧ goal t') rank
    (by
      rintro t ⟨ht, hgoal⟩
      obtain ⟨t', hgoes, hnext⟩ := h t ht hgoal
      refine ⟨t', hgoes, ?_⟩
      by_cases hgoal' : goal t'
      · exact Or.inl ⟨t, ht, hgoal, hgoes, hgoal'⟩
      · exact Or.inr ⟨⟨ht.tail hgoes, hgoal'⟩, hnext.resolve_left hgoal'⟩)
    ⟨.refl, hs⟩
  exact ⟨t, t', ht, hgoal, hgoes, hgoal'⟩

/-- From states related by `R`, `cstep` does what `astep` does. -/
structure Simulation (cstep : S → Except E (Option S)) (astep : T → Except E (Option T))
    (R : S → T → Prop) : Prop where
  error : ∀ {s a e}, R s a → astep a = .error e → cstep s = .error e
  halt : ∀ {s a}, R s a → astep a = .ok none → cstep s = .ok none
  goes : ∀ {s a a'}, R s a → Goes astep a a' → ∃ s', Goes cstep s s' ∧ R s' a'

namespace Simulation

variable {cstep : S → Except E (Option S)} {astep : T → Except E (Option T)} {R : S → T → Prop}

/-- Every step of `cstep` is one of `astep`. -/
theorem goes_inv (h : Simulation cstep astep R) {s s' : S} {a : T} (hR : R s a)
    (hgoes : Goes cstep s s') : ∃ a', Goes astep a a' ∧ R s' a' := by
  unfold Goes at hgoes
  rcases ha : astep a with e | r
  · rw [h.error hR ha] at hgoes
    cases hgoes
  · cases r with
    | none =>
        rw [h.halt hR ha] at hgoes
        cases hgoes
    | some a' =>
        obtain ⟨t, ht, hR'⟩ := h.goes hR ha
        rw [ht] at hgoes
        cases hgoes
        exact ⟨a', ha, hR'⟩

theorem error_inv (h : Simulation cstep astep R) {s : S} {a : T} (hR : R s a) {e : E}
    (herr : cstep s = .error e) : astep a = .error e := by
  rcases ha : astep a with e' | r
  · rw [h.error hR ha] at herr
    cases herr
    rfl
  · cases r with
    | none =>
        rw [h.halt hR ha] at herr
        cases herr
    | some a' =>
        obtain ⟨t, ht, -⟩ := h.goes hR ha
        rw [ht] at herr
        cases herr

/-- Every run of `cstep` is one of `astep`. -/
theorem reaches (h : Simulation cstep astep R) {s s' : S} {a : T} (hR : R s a)
    (hreach : Reaches cstep s s') : ∃ a', Reaches astep a a' ∧ R s' a' := by
  induction hreach with
  | refl => exact ⟨a, .refl, hR⟩
  | tail _ hgoes ih =>
      obtain ⟨b, hab, hb⟩ := ih
      obtain ⟨b', hbb', hb'⟩ := h.goes_inv hb hgoes
      exact ⟨b', hab.tail hbb', hb'⟩

/-- Every run of `astep` is one of `cstep`. -/
theorem reaches_of (h : Simulation cstep astep R) {s : S} {a a' : T} (hR : R s a)
    (hreach : Reaches astep a a') : ∃ s', Reaches cstep s s' ∧ R s' a' := by
  induction hreach with
  | refl => exact ⟨s, .refl, hR⟩
  | tail _ hgoes ih =>
      obtain ⟨t, hst, ht⟩ := ih
      obtain ⟨t', htt', ht'⟩ := h.goes ht hgoes
      exact ⟨t', hst.tail htt', ht'⟩

end Simulation

/-! ## Runs with a record -/

section Recorded

variable {H : Type}

/-- A run of `step` from `s₀`, with what `record` says of its steps, in order. -/
inductive Logged (step : S → Except E (Option S)) (record : S → S → List H) (s₀ : S) :
    List H → S → Prop where
  | refl : Logged step record s₀ [] s₀
  | tail {log : List H} {s t : S} (h : Logged step record s₀ log s) (hgoes : Goes step s t) :
      Logged step record s₀ (log ++ record s t) t

theorem Logged.reaches {step : S → Except E (Option S)} {record : S → S → List H} {s₀ s : S}
    {log : List H} (h : Logged step record s₀ log s) : Reaches step s₀ s := by
  induction h with
  | refl => exact .refl
  | tail _ hgoes ih => exact ih.tail hgoes

/-- The record of `n` steps and the state after them, or after the last one. -/
def loggedAfter (step : S → Except E (Option S)) (record : S → S → List H) :
    Nat → S → List H × S
  | 0, s => ([], s)
  | n + 1, s =>
    let (log, t) := loggedAfter step record n s
    match step t with
    | .ok (some u) => (log ++ record t u, u)
    | _ => (log, t)

theorem logged_after (step : S → Except E (Option S)) (record : S → S → List H) (n : Nat) (s : S) :
    Logged step record s (loggedAfter step record n s).1 (loggedAfter step record n s).2 := by
  induction n with
  | zero => exact .refl
  | succ n ih =>
      unfold loggedAfter
      simp only
      split
      · next u hgoes => exact ih.tail hgoes
      · exact ih

/-- Every run of `cstep` is one of `astep`, with the same record. -/
theorem Simulation.logged {cstep : S → Except E (Option S)} {astep : T → Except E (Option T)}
    {R : S → T → Prop} (h : Simulation cstep astep R) {crecord : S → S → List H}
    {arecord : T → T → List H}
    (hrecord : ∀ s s' a a', R s a → R s' a' → crecord s s' = arecord a a') {s₀ s : S} {a₀ : T}
    (hR : R s₀ a₀) {log : List H} (hrun : Logged cstep crecord s₀ log s) :
    ∃ a, Logged astep arecord a₀ log a ∧ R s a := by
  induction hrun with
  | refl => exact ⟨a₀, .refl, hR⟩
  | tail _ hgoes ih =>
      obtain ⟨b, hrun, hb⟩ := ih
      obtain ⟨b', hgoes', hb'⟩ := h.goes_inv hb hgoes
      rw [hrecord _ _ _ _ hb hb']
      exact ⟨b', hrun.tail hgoes', hb'⟩

end Recorded

/-! ## Computations that others interrupt -/

section Interrupted

variable {K : Type}

/-- `x` ends in a state with `Q` whatever others do while it waits: it returns such a state, or waits
    at some `k` and ends so when it is resumed there in any state that `rely` allows. -/
inductive Finishes (resume : K → T → Except E (Option K × S)) (rely : S → T → Prop)
    (Q : S → Prop) : Except E (Option K × S) → Prop where
  | done {s : S} (h : Q s) : Finishes resume rely Q (.ok (none, s))
  | wait {k : K} {s : S} (h : ∀ t, rely s t → Finishes resume rely Q (resume k t)) :
      Finishes resume rely Q (.ok (some k, s))

variable {resume : K → T → Except E (Option K × S)} {rely : S → T → Prop} {Q : S → Prop}

/-- What a computation comes to: its end, or a point with `inv` and a rank below `n`. -/
def Comes (Q : S → Prop) (inv : K → S → Prop) (rank : K → Nat) (n : Nat)
    (x : Except E (Option K × S)) : Prop :=
  (∃ s, x = .ok (none, s) ∧ Q s) ∨ ∃ k s, x = .ok (some k, s) ∧ inv k s ∧ rank k < n

/-- A computation finishes when each stretch of it keeps an invariant and makes some rank smaller. -/
theorem Finishes.of_rank (inv : K → S → Prop) (rank : K → Nat)
    (hstep : ∀ k s t, inv k s → rely s t → Comes Q inv rank (rank k) (resume k t)) {n : Nat}
    {x : Except E (Option K × S)} (hx : Comes Q inv rank n x) : Finishes resume rely Q x := by
  induction n generalizing x with
  | zero =>
      rcases hx with ⟨s, rfl, hQ⟩ | ⟨k, s, -, -, hlt⟩
      · exact .done hQ
      · exact absurd hlt (Nat.not_lt_zero _)
  | succ n ih =>
      rcases hx with ⟨s, rfl, hQ⟩ | ⟨k, s, rfl, hinv, hlt⟩
      · exact .done hQ
      · refine .wait fun t ht => ih ?_
        rcases hstep k s t hinv ht with hend | ⟨k', s', hrun, hinv', hlt'⟩
        · exact Or.inl hend
        · exact Or.inr ⟨k', s', hrun, hinv', by omega⟩

end Interrupted

end SysProg.Run
