import SysProg.Lib.Interleaving

set_option autoImplicit false

/-! # A lock that sleeps (`lecture_examples/6_threads/8_futex.c`)

Threads that increase one counter under a lock made of a word and the two calls of `futex`. Each access
of a shared variable is one step, and so is each of the calls: the kernel compares the word and puts the
thread to sleep at once. -/

namespace SysProg.Futex

open Interleaving
open scoped BigOperators

/-! ## The threads -/

/-- The number of iterations of `thread_f`. -/
def iterations : Nat := 100000

/-- The next step of a thread, in the iteration `i` of its loop. -/
inductive Pc where
  /-- `while (! start)`. -/
  | start
  /-- The compare-and-swap of `futex_lock`. -/
  | cas (i : Nat)
  /-- `futex_wait`. -/
  | wait (i : Nat)
  /-- Asleep in `futex_wait`. -/
  | asleep (i : Nat)
  /-- The load of `counter`. -/
  | load (i : Nat)
  /-- The store of `counter`, after the load of `value`. -/
  | store (i value : Nat)
  /-- The compare-and-swap of `futex_unlock`. -/
  | unlock (i : Nat)
  /-- `futex_wake`. -/
  | wake (i : Nat)
  | returned
deriving DecidableEq

/-- The shared variables, and where each thread is. -/
structure State (T : Type) where
  futex : Nat
  counter : Nat
  start : Bool
  pc : T → Pc

/-- `main` sets `start`, or a thread makes its next step. When it wakes another one, the kernel chooses
    which. -/
inductive Label (T : Type) where
  | main
  | thread (t : T) (woken : Option T)

/-- The loop of `thread_f` at its test. -/
def loop (i : Nat) : Pc := if i < iterations then .cas i else .returned

def Pc.isAsleep : Pc → Bool
  | .asleep _ => true
  | _ => false

variable {T : Type} [DecidableEq T]

/-- The thread `t` is at `p` next. -/
def State.goto (s : State T) (t : T) (p : Pc) : State T :=
  { s with pc := Function.update s.pc t p }

/-- The next step of a thread, or of `main`. A thread that sleeps makes none. -/
def step [Fintype T] : Label T → State T → Option (State T)
  | .main, s => if s.start then none else some { s with start := true }
  | .thread t woken, s =>
    match s.pc t with
    | .start => some (if s.start then s.goto t (loop 0) else s)
    | .cas i =>
      if s.futex = 0 then some { s.goto t (.load i) with futex := 1 } else some (s.goto t (.wait i))
    | .wait i => some (s.goto t (if s.futex = 1 then .asleep i else .cas i))
    | .asleep _ => none
    | .load i => some (s.goto t (.store i s.counter))
    | .store i value => some { s.goto t (.unlock i) with counter := value + 1 }
    | .unlock i => some { s.goto t (.wake i) with futex := if s.futex = 1 then 0 else s.futex }
    | .wake i =>
      match woken with
      | none => if ∃ u, (s.pc u).isAsleep then none else some (s.goto t (loop (i + 1)))
      | some u =>
        match s.pc u with
        | .asleep j => some ((s.goto u (.cas j)).goto t (loop (i + 1)))
        | _ => none
    | .returned => none

/-- The threads are created. -/
def init : State T := { futex := 0, counter := 0, start := false, pc := fun _ => .start }

/-- Every thread has returned, so that `main` prints the counter. -/
def Joined (s : State T) : Prop := ∀ t, s.pc t = .returned

/-! ## What the threads have done -/

/-- Between `futex_lock` and the compare-and-swap of `futex_unlock`. -/
def Pc.held : Pc → Nat
  | .load _ => 1
  | .store _ _ => 1
  | .unlock _ => 1
  | _ => 0

/-- How often the thread has increased the counter. -/
def Pc.counted : Pc → Nat
  | .start => 0
  | .cas i => i
  | .wait i => i
  | .asleep i => i
  | .load i => i
  | .store i _ => i
  | .unlock i => i + 1
  | .wake i => i + 1
  | .returned => iterations

/-- The iteration is one of the loop. -/
def Pc.Valid : Pc → Prop
  | .start => True
  | .returned => True
  | .cas i => i < iterations
  | .wait i => i < iterations
  | .asleep i => i < iterations
  | .load i => i < iterations
  | .store i _ => i < iterations
  | .unlock i => i < iterations
  | .wake i => i < iterations

/-- In the loop, and not asleep. -/
def Pc.Active : Pc → Prop
  | .start => False
  | .asleep _ => False
  | .returned => False
  | _ => True

structure Inv [Fintype T] (s : State T) : Prop where
  futex : ∑ u, (s.pc u).held = s.futex
  futex_le : s.futex ≤ 1
  counter : ∑ u, (s.pc u).counted = s.counter
  /-- What a thread has loaded is still the counter when it stores. -/
  value : ∀ u i v, s.pc u = .store i v → v = s.counter
  valid : ∀ u, (s.pc u).Valid
  /-- While a thread sleeps, another one is on its way to take the lock or to wake one. -/
  awake : (∃ u, (s.pc u).isAsleep) → ∃ u, (s.pc u).Active

/-! ## How much is left -/

/-- How often the thread will still change the futex word. -/
def Pc.changes : Pc → Nat
  | .start => 2 * iterations
  | .cas i => 2 * (iterations - i)
  | .wait i => 2 * (iterations - i)
  | .asleep i => 2 * (iterations - i)
  | .load i => 2 * (iterations - i) - 1
  | .store i _ => 2 * (iterations - i) - 1
  | .unlock i => 2 * (iterations - i) - 1
  | .wake i => 2 * (iterations - (i + 1))
  | .returned => 0

/-- More steps than the thread makes while the word is `futex`. -/
def Pc.within (futex : Nat) : Pc → Nat
  | .start => 6
  | .cas _ => if futex = 0 then 1 else 2
  | .wait _ => if futex = 0 then 2 else 1
  | .asleep _ => 0
  | .load _ => 2
  | .store _ _ => 1
  | .unlock _ => 0
  | .wake _ => 5
  | .returned => 0

def rank [Fintype T] (s : State T) : Nat :=
  (∑ u, (s.pc u).changes) * (6 * Fintype.card T + 2) + ∑ u, (s.pc u).within s.futex
    + if s.start then 0 else 1

section Steps

variable {s s' : State T} {t : T} {p : Pc} {l : Label T}

theorem goto_self : (s.goto t p).pc t = p := Function.update_self ..

theorem goto_ne {u : T} (h : u ≠ t) : (s.goto t p).pc u = s.pc u := Function.update_of_ne h ..

theorem iterations_pos : 0 < iterations := Nat.succ_pos _

/-- At the test of the loop, after `i` iterations. -/
theorem loop_cases {i : Nat} (h : i ≤ iterations) :
    (loop i = .cas i ∧ i < iterations) ∨ (loop i = .returned ∧ i = iterations) := by
  unfold loop
  split
  · next hlt => exact Or.inl ⟨rfl, hlt⟩
  · exact Or.inr ⟨rfl, by omega⟩

/-- What a step of the thread `t` does. -/
inductive Moves (s : State T) (t : T) : State T → Prop
  | enter (hpc : s.pc t = .start) : Moves s t (s.goto t (loop 0))
  | take (i : Nat) (hpc : s.pc t = .cas i) (hfutex : s.futex = 0) :
      Moves s t { s.goto t (.load i) with futex := 1 }
  | miss (i : Nat) (hpc : s.pc t = .cas i) (hfutex : s.futex ≠ 0) : Moves s t (s.goto t (.wait i))
  | sleep (i : Nat) (hpc : s.pc t = .wait i) (hfutex : s.futex = 1) :
      Moves s t (s.goto t (.asleep i))
  | retry (i : Nat) (hpc : s.pc t = .wait i) (hfutex : s.futex ≠ 1) : Moves s t (s.goto t (.cas i))
  | load (i : Nat) (hpc : s.pc t = .load i) : Moves s t (s.goto t (.store i s.counter))
  | store (i v : Nat) (hpc : s.pc t = .store i v) :
      Moves s t { s.goto t (.unlock i) with counter := v + 1 }
  | unlock (i : Nat) (hpc : s.pc t = .unlock i) :
      Moves s t { s.goto t (.wake i) with futex := if s.futex = 1 then 0 else s.futex }
  | wakeNone (i : Nat) (hpc : s.pc t = .wake i) (hnone : ∀ u, (s.pc u).isAsleep = false) :
      Moves s t (s.goto t (loop (i + 1)))
  | wake (i j : Nat) (u : T) (hpc : s.pc t = .wake i) (hu : s.pc u = .asleep j) :
      Moves s t ((s.goto u (.cas j)).goto t (loop (i + 1)))

variable [Fintype T]

/-- Everything a step can do. -/
theorem step_cases (h : step l s = some s') :
    (s.start = false ∧ s' = { s with start := true }) ∨ s' = s ∨ ∃ t, Moves s t s' := by
  cases l with
  | main =>
      simp only [step] at h
      split at h
      · cases h
      · next hstart => exact Or.inl ⟨Bool.eq_false_iff.2 hstart, (Option.some.inj h).symm⟩
  | thread t woken =>
      refine Or.inr ?_
      simp only [step] at h
      split at h
      · next hpc =>
          obtain rfl := Option.some.inj h
          split
          · exact Or.inr ⟨t, .enter hpc⟩
          · exact Or.inl rfl
      · next i hpc =>
          split at h
          · next hf => exact Or.inr ⟨t, Option.some.inj h ▸ .take i hpc hf⟩
          · next hf => exact Or.inr ⟨t, Option.some.inj h ▸ .miss i hpc hf⟩
      · next i hpc =>
          obtain rfl := Option.some.inj h
          split
          · next hf => exact Or.inr ⟨t, .sleep i hpc hf⟩
          · next hf => exact Or.inr ⟨t, .retry i hpc hf⟩
      · cases h
      · next i hpc => exact Or.inr ⟨t, Option.some.inj h ▸ .load i hpc⟩
      · next i v hpc => exact Or.inr ⟨t, Option.some.inj h ▸ .store i v hpc⟩
      · next i hpc => exact Or.inr ⟨t, Option.some.inj h ▸ .unlock i hpc⟩
      · next i hpc =>
          split at h
          · split at h
            · cases h
            · next hnone =>
                refine Or.inr ⟨t, Option.some.inj h ▸ .wakeNone i hpc fun u => ?_⟩
                exact Bool.eq_false_iff.2 fun hu => hnone ⟨u, hu⟩
          · next u =>
              split at h
              · next j hu => exact Or.inr ⟨t, Option.some.inj h ▸ .wake i j u hpc hu⟩
              · cases h
      · cases h

/-! ## The invariant -/

/-- One thread at most holds the lock. -/
theorem held_unique (h : Inv s) {u v : T} (hu : (s.pc u).held = 1) (hv : (s.pc v).held = 1) :
    u = v := by
  by_contra hne
  have hv' : (s.pc v).held ≠ 0 := by simp [hv]
  have hzero : (s.pc u).held = 0 := eq_zero_of_sum_le_one (h.futex.trans_le h.futex_le) hv' hne
  rw [hu] at hzero
  cases hzero

theorem held_active {p : Pc} (h : p.held ≠ 0) : p.Active := by
  cases p <;> trivial

omit [DecidableEq T] in
/-- While the word is set, a thread holds the lock. -/
theorem exists_held (h : Inv s) (hfutex : s.futex = 1) : ∃ u, (s.pc u).held ≠ 0 := by
  have hsum : ∑ u, (s.pc u).held ≠ 0 := by
    rw [h.futex, hfutex]
    exact Nat.one_ne_zero
  obtain ⟨u, -, hu⟩ := Finset.exists_ne_zero_of_sum_ne_zero hsum
  exact ⟨u, hu⟩

/-- A thread goes from its place to `p`, and the shared variables change with it. -/
theorem Inv.goto (h : Inv s) {f c : Nat} (hheld : (s.pc t).held + f = p.held + s.futex) (hf : f ≤ 1)
    (hcounted : (s.pc t).counted + c = p.counted + s.counter)
    (hvalue : ∀ i v, p = .store i v → v = c) (hc : c = s.counter ∨ (s.pc t).held = 1)
    (hvalid : p.Valid)
    (hawake : (∃ u, ((s.goto t p).pc u).isAsleep) → p.Active ∨ ∃ u, u ≠ t ∧ (s.pc u).Active) :
    Inv { s.goto t p with futex := f, counter := c } where
  futex := by
    have hsum := sum_update s.pc Pc.held t p
    have hfutex := h.futex
    show ∑ u, (Function.update s.pc t p u).held = f
    omega
  futex_le := hf
  counter := by
    have hsum := sum_update s.pc Pc.counted t p
    have hcounter := h.counter
    show ∑ u, (Function.update s.pc t p u).counted = c
    omega
  value := by
    intro u i v hu
    by_cases hut : u = t
    · subst hut
      exact hvalue i v (goto_self.symm.trans hu)
    · have hu' : s.pc u = .store i v := (goto_ne hut).symm.trans hu
      rcases hc with rfl | hc
      · exact h.value u i v hu'
      · exact absurd (held_unique h (by rw [hu']; rfl) hc) hut
  valid := by
    intro u
    show (Function.update s.pc t p u).Valid
    by_cases hut : u = t
    · subst hut
      rwa [Function.update_self]
    · rw [Function.update_of_ne hut]
      exact h.valid u
  awake := by
    intro hsleeps
    rcases hawake hsleeps with hp | ⟨u, hut, hu⟩
    · refine ⟨t, ?_⟩
      show (Function.update s.pc t p t).Active
      rwa [Function.update_self]
    · refine ⟨u, ?_⟩
      show (Function.update s.pc t p u).Active
      rwa [Function.update_of_ne hut]

/-- A thread ends its iteration. -/
theorem Inv.next (h : Inv s) {i : Nat} (hi : i < iterations) (hpc : s.pc t = .wake i)
    (hawake : (∃ u, ((s.goto t (loop (i + 1))).pc u).isAsleep) →
      (loop (i + 1)).Active ∨ ∃ u, u ≠ t ∧ (s.pc u).Active) :
    Inv (s.goto t (loop (i + 1))) := by
  obtain ⟨hloop, hlt⟩ | ⟨hloop, hend⟩ := loop_cases (i := i + 1) hi
  · rw [hloop]
    exact h.goto (by rw [hpc]; rfl) h.futex_le (by rw [hpc]; rfl) (by simp) (Or.inl rfl) hlt
      fun _ => Or.inl trivial
  · rw [hloop] at hawake ⊢
    refine h.goto (by rw [hpc]; rfl) h.futex_le ?_ (by simp) (Or.inl rfl) trivial hawake
    rw [hpc, Pc.counted, Pc.counted, hend]

/-- **A step of a thread keeps the invariant.** -/
theorem Moves.inv (h : Inv s) (hmove : Moves s t s') : Inv s' := by
  have hvalid := h.valid t
  cases hmove with
  | enter hpc =>
      obtain ⟨hloop, hlt⟩ | ⟨-, hzero⟩ := loop_cases (Nat.zero_le iterations)
      · rw [hloop]
        exact h.goto (by rw [hpc]; rfl) h.futex_le (by rw [hpc]; rfl) (by simp) (Or.inl rfl) hlt
          fun _ => Or.inl trivial
      · exact absurd hzero (Nat.ne_of_lt iterations_pos)
  | take i hpc hfutex =>
      rw [hpc] at hvalid
      exact h.goto (by rw [hpc, hfutex]; rfl) (Nat.le_refl 1) (by rw [hpc]; rfl) (by simp) (Or.inl rfl)
        hvalid fun _ => Or.inl trivial
  | miss i hpc hfutex =>
      rw [hpc] at hvalid
      exact h.goto (by rw [hpc]; rfl) h.futex_le (by rw [hpc]; rfl) (by simp) (Or.inl rfl) hvalid
        fun _ => Or.inl trivial
  | sleep i hpc hfutex =>
      rw [hpc] at hvalid
      refine h.goto (by rw [hpc]; rfl) h.futex_le (by rw [hpc]; rfl) (by simp) (Or.inl rfl) hvalid
        fun _ => Or.inr ?_
      obtain ⟨u, hu⟩ := exists_held h hfutex
      refine ⟨u, ?_, held_active hu⟩
      rintro rfl
      rw [hpc] at hu
      exact hu rfl
  | retry i hpc hfutex =>
      rw [hpc] at hvalid
      exact h.goto (by rw [hpc]; rfl) h.futex_le (by rw [hpc]; rfl) (by simp) (Or.inl rfl) hvalid
        fun _ => Or.inl trivial
  | load i hpc =>
      rw [hpc] at hvalid
      exact h.goto (by rw [hpc]; rfl) h.futex_le (by rw [hpc]; rfl) (by simp) (Or.inl rfl) hvalid
        fun _ => Or.inl trivial
  | store i v hpc =>
      rw [hpc] at hvalid
      have hv := h.value t i v hpc
      exact h.goto (by rw [hpc]; rfl) h.futex_le
        (by rw [hpc, hv]; show i + (s.counter + 1) = i + 1 + s.counter; omega) (by simp)
        (Or.inr (by rw [hpc]; rfl)) hvalid fun _ => Or.inl trivial
  | unlock i hpc =>
      rw [hpc] at hvalid
      have hset : s.futex = 1 := by
        have hle := Finset.single_le_sum (f := fun u => (s.pc u).held) (fun _ _ => Nat.zero_le _)
          (Finset.mem_univ t)
        rw [h.futex, hpc] at hle
        exact Nat.le_antisymm h.futex_le hle
      rw [if_pos hset]
      exact h.goto (by rw [hpc, hset]; rfl) (Nat.zero_le 1) (by rw [hpc]; rfl) (by simp) (Or.inl rfl)
        hvalid fun _ => Or.inl trivial
  | wakeNone i hpc hnone =>
      rw [hpc] at hvalid
      refine h.next hvalid hpc fun ⟨u, hu⟩ => ?_
      by_cases hut : u = t
      · subst hut
        rw [goto_self] at hu
        obtain ⟨hloop, -⟩ | ⟨hloop, -⟩ := loop_cases (i := i + 1) hvalid <;> rw [hloop] at hu <;> cases hu
      · rw [goto_ne hut, hnone u] at hu
        cases hu
  | wake i j u hpc hu =>
      rw [hpc] at hvalid
      have hut : u ≠ t := by
        rintro rfl
        rw [hpc] at hu
        cases hu
      have hvalid' := h.valid u
      rw [hu] at hvalid'
      have hwoken : Inv (s.goto u (.cas j)) :=
        h.goto (by rw [hu]; rfl) h.futex_le (by rw [hu]; rfl) (by simp) (Or.inl rfl) hvalid'
          fun _ => Or.inl trivial
      refine hwoken.next hvalid ((goto_ne (Ne.symm hut)).trans hpc) fun _ => Or.inr ⟨u, hut, ?_⟩
      rw [goto_self]
      trivial

theorem step_inv (h : Inv s) (hstep : step l s = some s') : Inv s' := by
  rcases step_cases hstep with ⟨-, rfl⟩ | rfl | ⟨t, hmove⟩
  · exact ⟨h.futex, h.futex_le, h.counter, h.value, h.valid, h.awake⟩
  · exact h
  · exact hmove.inv h

omit [DecidableEq T] in
theorem inv_init : Inv (init : State T) where
  futex := Finset.sum_eq_zero fun _ _ => rfl
  futex_le := Nat.zero_le 1
  counter := Finset.sum_eq_zero fun _ _ => rfl
  value := by
    rintro u i v ⟨⟩
  valid := fun _ => trivial
  awake := by
    rintro ⟨u, ⟨⟩⟩

/-! ## Every schedule comes to its end -/

theorem within_le (futex : Nat) (p : Pc) : p.within futex ≤ 6 := by
  cases p <;> simp only [Pc.within] <;> first | omega | split <;> omega

omit [DecidableEq T] in
theorem sum_within_le (s : State T) (futex : Nat) :
    ∑ u, (s.pc u).within futex ≤ 6 * Fintype.card T := by
  refine (Finset.sum_le_card_nsmul _ _ 6 fun u _ => within_le futex _).trans ?_
  rw [Finset.card_univ]
  exact (Nat.mul_comm (Fintype.card T) 6).le

/-- A step that changes the word. -/
theorem rank_change {f c : Nat} (hchange : p.changes < (s.pc t).changes) :
    rank { s.goto t p with futex := f, counter := c } < rank s := by
  have hsum := sum_update s.pc Pc.changes t p
  have hwithin := sum_within_le (s.goto t p) f
  have hmul : (∑ u, (Function.update s.pc t p u).changes + 1) * (6 * Fintype.card T + 2)
      ≤ (∑ u, (s.pc u).changes) * (6 * Fintype.card T + 2) := Nat.mul_le_mul_right _ (by omega)
  rw [Nat.add_mul, Nat.one_mul] at hmul
  show (∑ u, (Function.update s.pc t p u).changes) * (6 * Fintype.card T + 2)
    + ∑ u, ((s.goto t p).pc u).within f + (if s.start then 0 else 1) < rank s
  unfold rank
  split <;> omega

/-- A thread goes on, and leaves the word. -/
theorem rank_goto {c : Nat} (hchange : p.changes ≤ (s.pc t).changes) :
    rank { s.goto t p with counter := c } + (s.pc t).within s.futex ≤ rank s + p.within s.futex := by
  have hsum := sum_update s.pc Pc.changes t p
  have hsum' := sum_update s.pc (Pc.within s.futex) t p
  have hmul : (∑ u, (Function.update s.pc t p u).changes) * (6 * Fintype.card T + 2)
      ≤ (∑ u, (s.pc u).changes) * (6 * Fintype.card T + 2) := Nat.mul_le_mul_right _ (by omega)
  show (∑ u, (Function.update s.pc t p u).changes) * (6 * Fintype.card T + 2)
    + ∑ u, (Function.update s.pc t p u).within s.futex + (if s.start then 0 else 1)
    + (s.pc t).within s.futex ≤ rank s + p.within s.futex
  unfold rank
  omega

theorem rank_within {c : Nat} (hchange : p.changes ≤ (s.pc t).changes)
    (hwithin : p.within s.futex < (s.pc t).within s.futex) :
    rank { s.goto t p with counter := c } < rank s := by
  have hle := rank_goto (c := c) hchange
  omega

/-- The end of an iteration leaves the word, and the thread has less to do while it does not change. -/
theorem loop_le {i : Nat} (hi : i < iterations) (futex : Nat) :
    (loop (i + 1)).changes ≤ (Pc.wake i).changes ∧ (loop (i + 1)).within futex ≤ 2 := by
  obtain ⟨hloop, -⟩ | ⟨hloop, -⟩ := loop_cases (i := i + 1) hi
  · rw [hloop]
    refine ⟨Nat.le_refl _, ?_⟩
    simp only [Pc.within]
    split <;> omega
  · rw [hloop]
    exact ⟨Nat.zero_le _, Nat.zero_le _⟩

/-- **A step of a thread uses up some of what is left.** -/
theorem Moves.rank_lt (h : Inv s) (hmove : Moves s t s') : rank s' < rank s := by
  have hvalid := h.valid t
  cases hmove with
  | enter hpc =>
      obtain ⟨hloop, -⟩ | ⟨hloop, -⟩ := loop_cases (Nat.zero_le iterations)
      · rw [hloop]
        exact rank_within (by rw [hpc]; rfl) (by rw [hpc]; simp only [Pc.within]; split <;> omega)
      · rw [hloop]
        exact rank_within (by rw [hpc]; exact Nat.zero_le _) (by rw [hpc]; exact Nat.succ_pos _)
  | take i hpc hfutex =>
      rw [hpc] at hvalid
      have hlt : i < iterations := hvalid
      exact rank_change (by rw [hpc]; simp only [Pc.changes]; omega)
  | miss i hpc hfutex =>
      exact rank_within (by rw [hpc]; rfl) (by rw [hpc]; simp only [Pc.within, if_neg hfutex]; omega)
  | sleep i hpc hfutex =>
      exact rank_within (by rw [hpc]; rfl) (by rw [hpc]; simp [Pc.within, hfutex])
  | retry i hpc hfutex =>
      have hzero : s.futex = 0 := by
        have hle := h.futex_le
        omega
      exact rank_within (by rw [hpc]; rfl) (by rw [hpc]; simp [Pc.within, hzero])
  | load i hpc => exact rank_within (by rw [hpc]; rfl) (by rw [hpc]; simp [Pc.within])
  | store i v hpc => exact rank_within (by rw [hpc]; rfl) (by rw [hpc]; simp [Pc.within])
  | unlock i hpc =>
      rw [hpc] at hvalid
      have hlt : i < iterations := hvalid
      exact rank_change (by rw [hpc]; simp only [Pc.changes]; omega)
  | wakeNone i hpc hnone =>
      rw [hpc] at hvalid
      obtain ⟨hchanges, hwithin⟩ := loop_le hvalid s.futex
      refine rank_within (by rwa [hpc]) ?_
      rw [hpc]
      show (loop (i + 1)).within s.futex < 5
      omega
  | wake i j u hpc hu =>
      rw [hpc] at hvalid
      obtain ⟨hchanges, hwithin⟩ := loop_le hvalid s.futex
      have hpc' : (s.goto u (.cas j)).pc t = .wake i := by
        rw [goto_ne, hpc]
        rintro rfl
        rw [hpc] at hu
        cases hu
      -- the thread that is woken gets two more steps, and the one that wakes it gives up three
      have hwoken : rank (s.goto u (.cas j)) + (s.pc u).within s.futex
          ≤ rank s + (Pc.cas j).within s.futex := rank_goto (by rw [hu]; rfl)
      have hend : rank ((s.goto u (.cas j)).goto t (loop (i + 1)))
          + ((s.goto u (.cas j)).pc t).within s.futex
          ≤ rank (s.goto u (.cas j)) + (loop (i + 1)).within s.futex := rank_goto (by rwa [hpc'])
      have hcas : (Pc.cas j).within s.futex ≤ 2 := by
        simp only [Pc.within]
        split <;> omega
      rw [hpc', show (Pc.wake i).within s.futex = 5 from rfl] at hend
      omega

theorem isAsleep_iff {p : Pc} : p.isAsleep = true ↔ ∃ j, p = .asleep j := by
  cases p <;> simp [Pc.isAsleep]

/-- A thread in the loop that is not asleep goes on. -/
theorem exists_moves (hactive : (s.pc t).Active) : ∃ l s', step l s = some s' ∧ Moves s t s' := by
  cases hpc : s.pc t with
  | start | asleep | returned =>
      rw [hpc] at hactive
      exact hactive.elim
  | cas i =>
      by_cases hf : s.futex = 0
      · exact ⟨.thread t none, _, by simp only [step, hpc, if_pos hf], .take i hpc hf⟩
      · exact ⟨.thread t none, _, by simp only [step, hpc, if_neg hf], .miss i hpc hf⟩
  | wait i =>
      by_cases hf : s.futex = 1
      · exact ⟨.thread t none, _, by simp only [step, hpc, if_pos hf], .sleep i hpc hf⟩
      · exact ⟨.thread t none, _, by simp only [step, hpc, if_neg hf], .retry i hpc hf⟩
  | load i => exact ⟨.thread t none, _, by simp only [step, hpc], .load i hpc⟩
  | store i v => exact ⟨.thread t none, _, by simp only [step, hpc], .store i v hpc⟩
  | unlock i => exact ⟨.thread t none, _, by simp only [step, hpc], .unlock i hpc⟩
  | wake i =>
      by_cases hsleeps : ∃ u, (s.pc u).isAsleep
      · obtain ⟨u, hu⟩ := hsleeps
        obtain ⟨j, hj⟩ := isAsleep_iff.1 hu
        exact ⟨.thread t (some u), _, by simp only [step, hpc, hj], .wake i j u hpc hj⟩
      · refine ⟨.thread t none, _, by simp only [step, hpc, if_neg hsleeps], .wakeNone i hpc fun u => ?_⟩
        exact Bool.eq_false_iff.2 fun hu => hsleeps ⟨u, hu⟩

/-- **Every schedule makes its way to the end.** -/
theorem graded : Graded step (fun r (s : State T) => r = rank s ∧ Inv s) Joined where
  goes := by
    rintro r s l s' ⟨rfl, hs⟩ hstep
    rcases step_cases hstep with ⟨hstart, rfl⟩ | rfl | ⟨t, hmove⟩
    · refine Or.inr ⟨_, ?_, rfl, step_inv hs hstep⟩
      simp [rank, hstart]
    · exact Or.inl rfl
    · exact Or.inr ⟨_, hmove.rank_lt hs, rfl, hmove.inv hs⟩
  live := by
    rintro r s ⟨rfl, hs⟩ hend
    by_cases hactive : ∃ u, (s.pc u).Active
    · obtain ⟨t, ht⟩ := hactive
      obtain ⟨l, s', hstep, hmove⟩ := exists_moves ht
      exact ⟨l, s', hstep, _, hmove.rank_lt hs, rfl, hmove.inv hs⟩
    · -- no thread sleeps then, so one is in front of the loop
      obtain ⟨t, ht⟩ := not_forall.1 hend
      have hstart : s.pc t = .start := by
        cases hpc : s.pc t with
        | start => rfl
        | returned => exact absurd hpc ht
        | asleep j => exact absurd (hs.awake ⟨t, by rw [hpc]; rfl⟩) hactive
        | cas | wait | load | store | unlock | wake =>
            exact absurd ⟨t, by rw [hpc]; trivial⟩ hactive
      cases hgo : s.start with
      | true =>
          have hmove : Moves s t (s.goto t (loop 0)) := .enter hstart
          exact ⟨.thread t none, _, by simp only [step, hstart, hgo, if_true], _, hmove.rank_lt hs, rfl,
            hmove.inv hs⟩
      | false =>
          have hstep : step (.main : Label T) s = some { s with start := true } := by
            simp only [step, hgo, Bool.false_eq_true, if_false]
          exact ⟨.main, _, hstep, _, by simp [rank, hgo], rfl, step_inv hs hstep⟩

theorem reaches_inv (h : Reaches step (fun _ _ => True) (init : State T) s) : Inv s :=
  h.invariant Inv (fun _ _ _ hs _ hstep => step_inv hs hstep) inv_init

end Steps

/-! ## The program -/

/-- **The lock excludes, and no increment is lost**: in every interleaving of the six threads one of
    them at most is between `futex_lock` and `futex_unlock`, and `main` prints the number of all their
    iterations. -/
theorem futex_counts {s : State (Fin 6)} (h : Reaches step (fun _ _ => True) init s) :
    (∀ t u, (s.pc t).held = 1 → (s.pc u).held = 1 → t = u) ∧
      (Joined s → s.counter = 6 * iterations) := by
  have hinv := reaches_inv h
  refine ⟨fun t u => held_unique hinv, fun hend => ?_⟩
  rw [← hinv.counter, Finset.sum_congr rfl fun u _ => by rw [hend u, Pc.counted], Finset.sum_const,
    Finset.card_univ, Fintype.card_fin]
  rfl

/-- The thread 0 has taken the lock, and the thread 1 sleeps. -/
def oneSleeps : List (Label (Fin 6)) :=
  [.main, .thread 0 none, .thread 0 none, .thread 1 none, .thread 1 none, .thread 1 none]

theorem futex_counts_oneSleeps :
    ∃ s, after step oneSleeps init = some s ∧
      (∀ t u, (s.pc t).held = 1 → (s.pc u).held = 1 → t = u) ∧
      (Joined s → s.counter = 6 * iterations) :=
  ⟨_, rfl, futex_counts (reaches_of_after oneSleeps .refl rfl)⟩

/-- **No wake-up is lost**: while a thread sleeps, another one is about to try the lock, holds it, or is
    about to wake one; the threads can always come to their end, and in every schedule the state changes
    no more often than a bound. -/
theorem futex_ends {s : State (Fin 6)} (h : Reaches step (fun _ _ => True) init s) :
    ((∃ u, (s.pc u).isAsleep) → ∃ u, (s.pc u).Active) ∧
      (∃ s', Reaches step (fun _ _ => True) s s' ∧ Joined s') ∧
      ∀ k (s' : State (Fin 6)), Works step init k s' → k ≤ rank (init : State (Fin 6)) := by
  have hinv := reaches_inv h
  refine ⟨hinv.awake, graded.ends ⟨rfl, hinv⟩, fun k s' hrun => ?_⟩
  exact (graded (T := Fin 6)).works_le ⟨rfl, inv_init⟩ hrun

theorem futex_ends_oneSleeps :
    ∃ s, after step oneSleeps init = some s ∧ (s.pc 1).isAsleep = true ∧
      ((∃ u, (s.pc u).isAsleep) → ∃ u, (s.pc u).Active) ∧
      (∃ s', Reaches step (fun _ _ => True) s s' ∧ Joined s') ∧
      ∀ k (s' : State (Fin 6)), Works step init k s' → k ≤ rank (init : State (Fin 6)) :=
  ⟨_, rfl, rfl, futex_ends (reaches_of_after oneSleeps .refl rfl)⟩

end SysProg.Futex
