import SysProg.Lib.Interleaving

set_option autoImplicit false

/-! # A condition variable of a mutex and a flag (`lecture_examples/6_threads/14_condvar.c`)

`main` holds the mutex `event_lock` but in `condvar_signal`, where it sets the flag, gives the mutex away
until one of the threads in `condvar_wait` has cleared the flag, and takes it back. Each access of a shared
variable is one step. -/

namespace SysProg.Condvar

open Interleaving
open scoped BigOperators

/-! ## `main` and the threads -/

/-- The next step of `main`. -/
inductive MainPc where
  /-- `getchar`, before the next `condvar_signal`. -/
  | getchar
  /-- The load of `wait_count`. -/
  | load
  /-- The store to `is_event_set`, which tells the threads. -/
  | set
  /-- `pthread_mutex_unlock`. -/
  | unlock
  /-- `while (condvar->is_event_set)`. -/
  | spin
  /-- `pthread_mutex_lock`. -/
  | lock
  /-- The store to `is_event_set` after it. -/
  | clear
deriving DecidableEq

/-- The next step of a thread. -/
inductive Pc where
  /-- Outside of `condvar_wait`, before it increases `wait_count`. -/
  | outside
  /-- `pthread_mutex_lock`. -/
  | lock
  /-- `if (condvar->is_event_set)`. -/
  | test
  /-- The store to `is_event_set`. -/
  | clear
  /-- The decrease of `wait_count`. -/
  | sub
  /-- `pthread_mutex_unlock`, and the return. -/
  | unlock
  /-- `pthread_mutex_unlock`, and the next iteration. -/
  | retry
deriving DecidableEq

/-- A thread, and how many events it processed. -/
structure Waiter where
  pc : Pc
  processed : Nat

/-- The `struct condvar`, `main`, and the threads. -/
structure State (T : Type) where
  eventLock : Bool
  isEventSet : Bool
  waitCount : Int
  main : MainPc
  /-- How often `condvar_signal` told the threads. -/
  signaled : Nat
  threads : T → Waiter

/-- `main` or a thread makes its next step. -/
inductive Label (T : Type) where
  | main
  | thread (t : T)

section System

variable {T : Type} [DecidableEq T]

/-- The thread `t` is at `p` next, and has processed `n` events. -/
def State.goto (s : State T) (t : T) (p : Pc) (n : Nat) : State T :=
  { s with threads := Function.update s.threads t ⟨p, n⟩ }

/-- The next step of `main` or of a thread. -/
def step : Label T → State T → Option (State T)
  | .main, s =>
    match s.main with
    | .getchar => some { s with main := .load }
    | .load => some { s with main := if s.waitCount = 0 then .getchar else .set }
    | .set => some { s with isEventSet := true, signaled := s.signaled + 1, main := .unlock }
    | .unlock => some { s with eventLock := false, main := .spin }
    | .spin => some (if s.isEventSet then s else { s with main := .lock })
    | .lock => some (if s.eventLock then s else { s with eventLock := true, main := .clear })
    | .clear => some { s with isEventSet := false, main := .getchar }
  | .thread t, s =>
    let n := (s.threads t).processed
    match (s.threads t).pc with
    | .outside => some { s.goto t .lock n with waitCount := s.waitCount + 1 }
    | .lock => some (if s.eventLock then s else { s.goto t .test n with eventLock := true })
    | .test => some (s.goto t (if s.isEventSet then .clear else .retry) n)
    | .clear => some { s.goto t .sub n with isEventSet := false }
    | .sub => some { s.goto t .unlock n with waitCount := s.waitCount - 1 }
    | .unlock => some { s.goto t .outside (n + 1) with eventLock := false }
    | .retry => some { s.goto t .lock n with eventLock := false }

end System

/-- After `condvar_create`. -/
def init {T : Type} : State T where
  eventLock := true
  isEventSet := false
  waitCount := 0
  main := .getchar
  signaled := 0
  threads := fun _ => ⟨.outside, 0⟩

/-! ## Who holds and who waits -/

def MainPc.holds : MainPc → Bool
  | .spin | .lock => false
  | _ => true

/-- An event is about to be set, or it is set. -/
def MainPc.offers (set : Bool) : MainPc → Bool
  | .set | .unlock => true
  | .spin => set
  | _ => false

def Pc.holds : Pc → Bool
  | .test | .clear | .sub | .unlock | .retry => true
  | _ => false

/-- Counted by `wait_count`. -/
def Pc.counted : Pc → Bool
  | .outside | .unlock => false
  | _ => true

/-- Can still take an event. -/
def Pc.waits : Pc → Bool
  | .lock | .test | .clear | .retry => true
  | _ => false

/-- Has taken an event, and will return. -/
def Pc.took : Pc → Bool
  | .sub | .unlock => true
  | _ => false

/-- The events that a thread has taken. -/
def Waiter.taken (w : Waiter) : Nat := w.processed + w.pc.took.toNat

theorem Pc.waits_of_counted {p : Pc} (hcounted : p.counted = true) (hholds : p.holds = false) :
    p.waits = true := by
  cases p <;> simp_all [Pc.counted, Pc.holds, Pc.waits]

theorem MainPc.holds_of_offers {m : MainPc} (h : m.offers false = true) : m.holds = true := by
  cases m <;> simp_all [MainPc.offers, MainPc.holds]

/-- What holds in every run. -/
structure Inv {T : Type} [Fintype T] (s : State T) : Prop where
  lock : s.main.holds.toNat + ∑ t, (s.threads t).pc.holds.toNat = s.eventLock.toNat
  count : s.waitCount = (∑ t, (s.threads t).pc.counted.toNat : Nat)
  taken : s.signaled = ∑ t, (s.threads t).taken + s.isEventSet.toNat
  set : s.isEventSet = true → s.main = .unlock ∨ s.main = .spin
  clear : ∀ t, (s.threads t).pc = .clear → s.isEventSet = true
  retry : ∀ t, (s.threads t).pc = .retry → s.isEventSet = false
  waiter : s.main.offers s.isEventSet = true → ∃ t, (s.threads t).pc.waits = true

section Steps

variable {T : Type} [Fintype T] [DecidableEq T] {s s' : State T} {t u : T}

/-! ## Steps of `main` -/

/-- What a step of `main` does. -/
inductive MainMoves (s : State T) : State T → Prop
  | call (hmain : s.main = .getchar) : MainMoves s { s with main := .load }
  | none (hmain : s.main = .load) (hcount : s.waitCount = 0) : MainMoves s { s with main := .getchar }
  | some (hmain : s.main = .load) (hcount : s.waitCount ≠ 0) : MainMoves s { s with main := .set }
  | set (hmain : s.main = .set) :
      MainMoves s { s with isEventSet := true, signaled := s.signaled + 1, main := .unlock }
  | unlock (hmain : s.main = .unlock) : MainMoves s { s with eventLock := false, main := .spin }
  | taken (hmain : s.main = .spin) (hset : s.isEventSet = false) : MainMoves s { s with main := .lock }
  | lock (hmain : s.main = .lock) (hfree : s.eventLock = false) :
      MainMoves s { s with eventLock := true, main := .clear }
  | clear (hmain : s.main = .clear) : MainMoves s { s with isEventSet := false, main := .getchar }

/-- What a step of the thread `t` does. -/
inductive Moves (s : State T) (t : T) : State T → Prop
  | enter (hpc : (s.threads t).pc = .outside) :
      Moves s t { s.goto t .lock (s.threads t).processed with waitCount := s.waitCount + 1 }
  | lock (hpc : (s.threads t).pc = .lock) (hfree : s.eventLock = false) :
      Moves s t { s.goto t .test (s.threads t).processed with eventLock := true }
  | found (hpc : (s.threads t).pc = .test) (hset : s.isEventSet = true) :
      Moves s t (s.goto t .clear (s.threads t).processed)
  | missed (hpc : (s.threads t).pc = .test) (hset : s.isEventSet = false) :
      Moves s t (s.goto t .retry (s.threads t).processed)
  | clear (hpc : (s.threads t).pc = .clear) :
      Moves s t { s.goto t .sub (s.threads t).processed with isEventSet := false }
  | sub (hpc : (s.threads t).pc = .sub) :
      Moves s t { s.goto t .unlock (s.threads t).processed with waitCount := s.waitCount - 1 }
  | unlock (hpc : (s.threads t).pc = .unlock) :
      Moves s t { s.goto t .outside ((s.threads t).processed + 1) with eventLock := false }
  | retry (hpc : (s.threads t).pc = .retry) :
      Moves s t { s.goto t .lock (s.threads t).processed with eventLock := false }

omit [Fintype T] in
/-- Everything a step can do. -/
theorem step_cases {l : Label T} (h : step l s = some s') :
    s' = s ∨ MainMoves s s' ∨ ∃ t, Moves s t s' := by
  cases l with
  | main =>
      simp only [step] at h
      split at h <;> obtain rfl := Option.some.inj h
      · next hmain => exact Or.inr (Or.inl (.call hmain))
      · next hmain =>
          split
          · next hcount => exact Or.inr (Or.inl (.none hmain hcount))
          · next hcount => exact Or.inr (Or.inl (.some hmain hcount))
      · next hmain => exact Or.inr (Or.inl (.set hmain))
      · next hmain => exact Or.inr (Or.inl (.unlock hmain))
      · next hmain =>
          split
          · exact Or.inl rfl
          · next hset => exact Or.inr (Or.inl (.taken hmain (Bool.eq_false_iff.2 hset)))
      · next hmain =>
          split
          · exact Or.inl rfl
          · next hlock => exact Or.inr (Or.inl (.lock hmain (Bool.eq_false_iff.2 hlock)))
      · next hmain => exact Or.inr (Or.inl (.clear hmain))
  | thread t =>
      simp only [step] at h
      split at h <;> obtain rfl := Option.some.inj h
      · next hpc => exact Or.inr (Or.inr ⟨t, .enter hpc⟩)
      · next hpc =>
          split
          · exact Or.inl rfl
          · next hlock => exact Or.inr (Or.inr ⟨t, .lock hpc (Bool.eq_false_iff.2 hlock)⟩)
      · next hpc =>
          split
          · next hset => exact Or.inr (Or.inr ⟨t, .found hpc hset⟩)
          · next hset => exact Or.inr (Or.inr ⟨t, .missed hpc (Bool.eq_false_iff.2 hset)⟩)
      · next hpc => exact Or.inr (Or.inr ⟨t, .clear hpc⟩)
      · next hpc => exact Or.inr (Or.inr ⟨t, .sub hpc⟩)
      · next hpc => exact Or.inr (Or.inr ⟨t, .unlock hpc⟩)
      · next hpc => exact Or.inr (Or.inr ⟨t, .retry hpc⟩)

/-! ## The invariant -/

omit [DecidableEq T] in
theorem Inv.holds_le (h : Inv s) (t : T) :
    s.main.holds.toNat + (s.threads t).pc.holds.toNat ≤ s.eventLock.toNat := by
  have hle := Finset.single_le_sum (f := fun u => (s.threads u).pc.holds.toNat)
    (fun _ _ => Nat.zero_le _) (Finset.mem_univ t)
  have hlock := h.lock
  omega

omit [DecidableEq T] in
/-- While `main` holds the mutex, no thread does. -/
theorem Inv.main_alone (h : Inv s) (hmain : s.main.holds = true) (t : T) :
    (s.threads t).pc.holds = false := by
  have hle := h.holds_le t
  have hlock := Bool.toNat_le s.eventLock
  rw [hmain, Bool.toNat_true] at hle
  exact Bool.toNat_eq_zero.1 (by omega)

omit [DecidableEq T] in
/-- While a thread holds the mutex, `main` does not. -/
theorem Inv.thread_alone (h : Inv s) (ht : (s.threads t).pc.holds = true) :
    s.main.holds = false ∧ s.eventLock = true := by
  have hle := h.holds_le t
  have hlock := Bool.toNat_le s.eventLock
  rw [ht, Bool.toNat_true] at hle
  exact ⟨Bool.toNat_eq_zero.1 (by omega), Bool.toNat_eq_one.1 (by omega)⟩

/-- One thread at most holds the mutex. -/
theorem Inv.holds_unique (h : Inv s) (ht : (s.threads t).pc.holds = true)
    (hu : (s.threads u).pc.holds = true) : u = t := by
  by_contra hne
  have hsum : ∑ v, (s.threads v).pc.holds.toNat ≤ 1 := by
    have hlock := h.lock
    have hle := Bool.toNat_le s.eventLock
    omega
  have hzero := eq_zero_of_sum_le_one hsum (by rw [ht]; exact Nat.one_ne_zero) hne
  rw [hu] at hzero
  cases hzero

omit [DecidableEq T] in
/-- A step of `main`. -/
theorem Inv.goto_main (h : Inv s) {m : MainPc} {lock set : Bool} {n : Nat}
    (hlock : m.holds.toNat + s.eventLock.toNat = s.main.holds.toNat + lock.toNat)
    (htaken : n + s.isEventSet.toNat = s.signaled + set.toNat)
    (hset : set = true → m = .unlock ∨ m = .spin)
    (hclear : ∀ t, (s.threads t).pc = .clear → set = true)
    (hretry : ∀ t, (s.threads t).pc = .retry → set = false)
    (hwaiter : m.offers set = true → ∃ t, (s.threads t).pc.waits = true) :
    Inv { s with eventLock := lock, isEventSet := set, main := m, signaled := n } where
  lock := by
    have hold := h.lock
    show m.holds.toNat + ∑ t, (s.threads t).pc.holds.toNat = lock.toNat
    omega
  count := h.count
  taken := by
    have hold := h.taken
    show n = ∑ t, (s.threads t).taken + set.toNat
    omega
  set := hset
  clear := hclear
  retry := hretry
  waiter := hwaiter

omit [DecidableEq T] in
/-- **A step of `main` keeps the invariant.** -/
theorem MainMoves.inv (h : Inv s) (hmove : MainMoves s s') : Inv s' := by
  -- the flag is only set in `condvar_signal`, and no thread is behind its lock while `main` holds it
  have hclear : s.main.holds = true → ∀ {set : Bool} (t : T), (s.threads t).pc = .clear → set = true :=
    fun hmain _ t hpc => by
      have halone := h.main_alone hmain t
      rw [hpc] at halone
      cases halone
  have hretry : s.main.holds = true → ∀ {set : Bool} (t : T), (s.threads t).pc = .retry → set = false :=
    fun hmain _ t hpc => by
      have halone := h.main_alone hmain t
      rw [hpc] at halone
      cases halone
  have hunset : s.main ≠ .unlock → s.main ≠ .spin → s.isEventSet = false := fun hunlock hspin =>
    Bool.eq_false_iff.2 fun hset => (h.set hset).elim hunlock hspin
  cases hmove with
  | call hmain =>
      have hfalse := hunset (by rw [hmain]; nofun) (by rw [hmain]; nofun)
      exact h.goto_main (by rw [hmain]; rfl) rfl (by rw [hfalse]; nofun) h.clear h.retry nofun
  | none hmain hcount =>
      have hfalse := hunset (by rw [hmain]; nofun) (by rw [hmain]; nofun)
      exact h.goto_main (by rw [hmain]; rfl) rfl (by rw [hfalse]; nofun) h.clear h.retry nofun
  | some hmain hcount =>
      have hfalse := hunset (by rw [hmain]; nofun) (by rw [hmain]; nofun)
      refine h.goto_main (by rw [hmain]; rfl) rfl (by rw [hfalse]; nofun) h.clear h.retry fun _ => ?_
      have hsum : ∑ t, (s.threads t).pc.counted.toNat ≠ 0 := by
        have hold := h.count
        omega
      obtain ⟨t, -, ht⟩ := Finset.exists_ne_zero_of_sum_ne_zero hsum
      have hcounted : (s.threads t).pc.counted = true := by
        rw [← Bool.not_eq_false]
        exact fun hfalse => ht (by rw [hfalse]; rfl)
      exact ⟨t, Pc.waits_of_counted hcounted (h.main_alone (by rw [hmain]; rfl) t)⟩
  | set hmain =>
      have hfalse := hunset (by rw [hmain]; nofun) (by rw [hmain]; nofun)
      have hholds : s.main.holds = true := by rw [hmain]; rfl
      refine h.goto_main (by rw [hmain]; rfl) ?_ (fun _ => Or.inl rfl) (hclear hholds) (hretry hholds)
        fun _ => h.waiter (by rw [hmain]; rfl)
      rw [hfalse]
      rfl
  | unlock hmain =>
      have hholds : s.main.holds = true := by rw [hmain]; rfl
      have hlock : s.eventLock = true := by
        have hold := h.lock
        have hle := Bool.toNat_le s.eventLock
        rw [hholds, Bool.toNat_true] at hold
        exact Bool.toNat_eq_one.1 (by omega)
      refine h.goto_main ?_ rfl (fun _ => Or.inr rfl) (hclear hholds) (hretry hholds)
        fun _ => h.waiter (by rw [hmain]; rfl)
      rw [hmain, hlock]
      rfl
  | taken hmain hset =>
      exact h.goto_main (by rw [hmain]; rfl) rfl (by rw [hset]; nofun) h.clear h.retry nofun
  | lock hmain hfree =>
      have hfalse := hunset (by rw [hmain]; nofun) (by rw [hmain]; nofun)
      exact h.goto_main (by rw [hmain, hfree]; rfl) rfl (by rw [hfalse]; nofun) h.clear h.retry nofun
  | clear hmain =>
      have hfalse := hunset (by rw [hmain]; nofun) (by rw [hmain]; nofun)
      have hholds : s.main.holds = true := by rw [hmain]; rfl
      refine h.goto_main (by rw [hmain]; rfl) ?_ nofun (hclear hholds) (fun _ _ => rfl) nofun
      rw [hfalse]

/-- A step of the thread `t`. -/
theorem Inv.goto (h : Inv s) {p : Pc} {n : Nat} {lock set : Bool} {count : Int}
    (hlock : p.holds.toNat + s.eventLock.toNat = (s.threads t).pc.holds.toNat + lock.toNat)
    (hcount : count + (s.threads t).pc.counted.toNat = s.waitCount + p.counted.toNat)
    (htaken : n + p.took.toNat + set.toNat = (s.threads t).taken + s.isEventSet.toNat)
    (hset : set = s.isEventSet ∨ set = false ∧ (s.threads t).pc.holds = true)
    (hclear : p = .clear → set = true) (hretry : p = .retry → set = false)
    (hwaiter : s.main.offers set = true → (s.threads t).pc.waits = true → p.waits = true) :
    Inv { s.goto t p n with eventLock := lock, isEventSet := set, waitCount := count } where
  lock := by
    have hsum : ∑ u, (Function.update s.threads t ⟨p, n⟩ u).pc.holds.toNat
        + (s.threads t).pc.holds.toNat = ∑ u, (s.threads u).pc.holds.toNat + p.holds.toNat :=
      sum_update s.threads (fun w => w.pc.holds.toNat) t ⟨p, n⟩
    have hold := h.lock
    show s.main.holds.toNat + ∑ u, (Function.update s.threads t ⟨p, n⟩ u).pc.holds.toNat = lock.toNat
    omega
  count := by
    have hsum : ∑ u, (Function.update s.threads t ⟨p, n⟩ u).pc.counted.toNat
        + (s.threads t).pc.counted.toNat = ∑ u, (s.threads u).pc.counted.toNat + p.counted.toNat :=
      sum_update s.threads (fun w => w.pc.counted.toNat) t ⟨p, n⟩
    have hold := h.count
    show count = (∑ u, (Function.update s.threads t ⟨p, n⟩ u).pc.counted.toNat : Nat)
    omega
  taken := by
    have hsum : ∑ u, (Function.update s.threads t ⟨p, n⟩ u).taken + (s.threads t).taken
        = ∑ u, (s.threads u).taken + (n + p.took.toNat) := sum_update s.threads Waiter.taken t ⟨p, n⟩
    have hold := h.taken
    show s.signaled = ∑ u, (Function.update s.threads t ⟨p, n⟩ u).taken + set.toNat
    omega
  set := by
    intro htrue
    rcases hset with rfl | ⟨rfl, -⟩
    · exact h.set htrue
    · cases htrue
  clear := by
    intro u hu
    replace hu : (Function.update s.threads t ⟨p, n⟩ u).pc = .clear := hu
    by_cases hut : u = t
    · subst hut
      rw [Function.update_self] at hu
      exact hclear hu
    · rw [Function.update_of_ne hut] at hu
      rcases hset with rfl | ⟨-, hholds⟩
      · exact h.clear u hu
      · exact absurd (h.holds_unique hholds (by rw [hu]; rfl)) hut
  retry := by
    intro u hu
    replace hu : (Function.update s.threads t ⟨p, n⟩ u).pc = .retry := hu
    by_cases hut : u = t
    · subst hut
      rw [Function.update_self] at hu
      exact hretry hu
    · rw [Function.update_of_ne hut] at hu
      rcases hset with rfl | ⟨rfl, -⟩
      · exact h.retry u hu
      · rfl
  waiter := by
    intro hoffers
    replace hoffers : s.main.offers set = true := hoffers
    show ∃ u, (Function.update s.threads t ⟨p, n⟩ u).pc.waits = true
    rcases hset with rfl | ⟨rfl, hholds⟩
    · obtain ⟨u, hu⟩ := h.waiter hoffers
      by_cases hut : u = t
      · subst hut
        exact ⟨u, by rw [Function.update_self]; exact hwaiter hoffers hu⟩
      · exact ⟨u, by rwa [Function.update_of_ne hut]⟩
    · have halone := (h.thread_alone hholds).1
      rw [MainPc.holds_of_offers hoffers] at halone
      cases halone

/-- **A step of a thread keeps the invariant.** -/
theorem Moves.inv (h : Inv s) (hmove : Moves s t s') : Inv s' := by
  have hlocked : (s.threads t).pc.holds = true → s.eventLock = true := fun ht => (h.thread_alone ht).2
  cases hmove with
  | enter hpc =>
      exact h.goto (by rw [hpc]; rfl) (by rw [hpc]; simp [Pc.counted]) (by rw [Waiter.taken, hpc]; rfl)
        (Or.inl rfl) nofun nofun fun _ _ => rfl
  | lock hpc hfree =>
      exact h.goto (by rw [hpc, hfree]; rfl) (by rw [hpc]; rfl) (by rw [Waiter.taken, hpc]; rfl)
        (Or.inl rfl) nofun nofun fun _ _ => rfl
  | found hpc hset =>
      exact h.goto (by rw [hpc]; rfl) (by rw [hpc]; rfl) (by rw [Waiter.taken, hpc]; rfl) (Or.inl rfl)
        (fun _ => hset) nofun fun _ _ => rfl
  | missed hpc hset =>
      exact h.goto (by rw [hpc]; rfl) (by rw [hpc]; rfl) (by rw [Waiter.taken, hpc]; rfl) (Or.inl rfl)
        nofun (fun _ => hset) fun _ _ => rfl
  | clear hpc =>
      have hset := h.clear t hpc
      have hholds : (s.threads t).pc.holds = true := by rw [hpc]; rfl
      refine h.goto (by rw [hpc]; rfl) (by rw [hpc]; rfl) (by rw [Waiter.taken, hpc, hset]; rfl)
        (Or.inr ⟨rfl, hholds⟩) nofun nofun fun hoffers => ?_
      have halone := (h.thread_alone hholds).1
      rw [MainPc.holds_of_offers hoffers] at halone
      cases halone
  | sub hpc =>
      exact h.goto (by rw [hpc]; rfl) (by rw [hpc]; simp [Pc.counted]) (by rw [Waiter.taken, hpc]; rfl)
        (Or.inl rfl) nofun nofun (by rw [hpc]; nofun)
  | unlock hpc =>
      exact h.goto (by rw [hlocked (by rw [hpc]; rfl), hpc]; rfl) (by rw [hpc]; rfl)
        (by rw [Waiter.taken, hpc]; rfl) (Or.inl rfl) nofun nofun (by rw [hpc]; nofun)
  | retry hpc =>
      exact h.goto (by rw [hlocked (by rw [hpc]; rfl), hpc]; rfl) (by rw [hpc]; rfl)
        (by rw [Waiter.taken, hpc]; rfl) (Or.inl rfl) nofun nofun fun _ _ => rfl

omit [DecidableEq T] in
theorem inv_init : Inv (init : State T) where
  lock := by
    have hzero : ∑ t : T, ((init : State T).threads t).pc.holds.toNat = 0 :=
      Finset.sum_eq_zero fun _ _ => rfl
    rw [hzero]
    rfl
  count := by
    have hzero : ∑ t : T, ((init : State T).threads t).pc.counted.toNat = 0 :=
      Finset.sum_eq_zero fun _ _ => rfl
    rw [hzero]
    rfl
  taken := by
    have hzero : ∑ t : T, ((init : State T).threads t).taken = 0 := Finset.sum_eq_zero fun _ _ => rfl
    rw [hzero]
    rfl
  set := nofun
  clear := nofun
  retry := nofun
  waiter := nofun

theorem reaches_inv (h : Reaches step (fun _ _ => True) (init : State T) s) : Inv s := by
  refine h.invariant Inv (fun s l s' hs _ hstep => ?_) inv_init
  rcases step_cases hstep with rfl | hmove | ⟨t, hmove⟩
  · exact hs
  · exact hmove.inv hs
  · exact hmove.inv hs

/-! ## `condvar_signal` comes to its end -/

/-- What `main` has left to do in `condvar_signal`. -/
def MainPc.left (set : Bool) : MainPc → Nat
  | .getchar => 0
  | .clear => 1
  | .lock => 2
  | .spin => if set then 4 else 3
  | .unlock => 5
  | .set => 6
  | .load => 7

/-- The steps to the one that lets `main` go on: until a thread has cleared the flag where it is set, and
    until the mutex is free where it is not. -/
def Pc.left (set : Bool) : Pc → Nat
  | .lock => if set then 2 else 0
  | .test => if set then 1 else 2
  | .sub => 2
  | .unlock | .retry => 1
  | _ => 0

def rank (s : State T) : Nat :=
  s.main.left s.isEventSet * (2 * Fintype.card T + 1) + ∑ t, (s.threads t).pc.left s.isEventSet

theorem Pc.left_le (set : Bool) (p : Pc) : p.left set ≤ 2 := by
  cases p <;> cases set <;> simp [Pc.left]

omit [DecidableEq T] in
theorem sum_left_le (threads : T → Waiter) (set : Bool) :
    ∑ t, (threads t).pc.left set ≤ 2 * Fintype.card T := by
  refine (Finset.sum_le_card_nsmul _ _ 2 fun t _ => Pc.left_le set _).trans ?_
  rw [Finset.card_univ]
  exact (Nat.mul_comm (Fintype.card T) 2).le

omit [DecidableEq T] in
/-- `main` goes on. -/
theorem rank_main (h : s'.main.left s'.isEventSet < s.main.left s.isEventSet) : rank s' < rank s := by
  have hle := sum_left_le s'.threads s'.isEventSet
  have hmul : (s'.main.left s'.isEventSet + 1) * (2 * Fintype.card T + 1)
      ≤ s.main.left s.isEventSet * (2 * Fintype.card T + 1) := Nat.mul_le_mul_right _ h
  rw [Nat.add_mul, Nat.one_mul] at hmul
  unfold rank
  omega

/-- A thread goes on, and leaves the flag. -/
theorem rank_goto {p : Pc} {n : Nat} {lock : Bool} {count : Int}
    (h : p.left s.isEventSet < (s.threads t).pc.left s.isEventSet) :
    rank { s.goto t p n with eventLock := lock, waitCount := count } < rank s := by
  have hsum : ∑ u, (Function.update s.threads t ⟨p, n⟩ u).pc.left s.isEventSet
      + (s.threads t).pc.left s.isEventSet
      = ∑ u, (s.threads u).pc.left s.isEventSet + p.left s.isEventSet :=
    sum_update s.threads (fun w => w.pc.left s.isEventSet) t ⟨p, n⟩
  show s.main.left s.isEventSet * (2 * Fintype.card T + 1)
    + ∑ u, (Function.update s.threads t ⟨p, n⟩ u).pc.left s.isEventSet < rank s
  unfold rank
  omega

omit [DecidableEq T] in
/-- A thread holds the mutex that `main` waits for. -/
theorem Inv.exists_holds (h : Inv s) (hmain : s.main.holds = false) (hlock : s.eventLock = true) :
    ∃ t, (s.threads t).pc.holds = true := by
  have hsum : ∑ t, (s.threads t).pc.holds.toNat ≠ 0 := by
    have hold := h.lock
    rw [hmain, hlock] at hold
    have hzero := Bool.toNat_false
    have hone := Bool.toNat_true
    omega
  obtain ⟨t, -, ht⟩ := Finset.exists_ne_zero_of_sum_ne_zero hsum
  refine ⟨t, ?_⟩
  rw [← Bool.not_eq_false]
  exact fun hfalse => ht (by rw [hfalse]; rfl)

/-- The thread that holds the mutex goes on while `main` waits. -/
theorem exists_moves_of_holds (h : Inv s) (hspin : s.isEventSet = true → s.main = .spin)
    (ht : (s.threads t).pc.holds = true) :
    ∃ s', step (.thread t) s = some s' ∧ Moves s t s' ∧ rank s' < rank s := by
  cases hpc : (s.threads t).pc with
  | outside | lock =>
      rw [hpc] at ht
      cases ht
  | test =>
      cases hset : s.isEventSet with
      | true =>
          refine ⟨_, ?_, .found hpc hset, rank_goto (by rw [hpc, hset]; simp [Pc.left])⟩
          simp only [step, hpc, hset, if_true]
      | false =>
          refine ⟨_, ?_, .missed hpc hset, rank_goto (by rw [hpc, hset]; simp [Pc.left])⟩
          simp only [step, hpc, hset, Bool.false_eq_true, if_false]
  | clear =>
      have hset := h.clear t hpc
      refine ⟨_, by simp only [step, hpc], .clear hpc, rank_main ?_⟩
      show s.main.left false < s.main.left s.isEventSet
      rw [hspin hset, hset]
      simp [MainPc.left]
  | sub =>
      exact ⟨_, by simp only [step, hpc], .sub hpc, rank_goto (by rw [hpc]; simp [Pc.left])⟩
  | unlock =>
      exact ⟨_, by simp only [step, hpc], .unlock hpc, rank_goto (by rw [hpc]; simp [Pc.left])⟩
  | retry =>
      have hset := h.retry t hpc
      exact ⟨_, by simp only [step, hpc], .retry hpc, rank_goto (by rw [hpc, hset]; simp [Pc.left])⟩

omit [DecidableEq T] in
/-- A thread that waits while the mutex is free is about to take it. -/
theorem Inv.lock_of_waits (h : Inv s) (hfree : s.eventLock = false)
    (ht : (s.threads t).pc.waits = true) : (s.threads t).pc = .lock := by
  have hle := h.holds_le t
  rw [hfree] at hle
  cases hpc : (s.threads t).pc with
  | lock => rfl
  | outside | sub | unlock =>
      rw [hpc] at ht
      cases ht
  | test | clear | retry => simp [hpc, Pc.holds] at hle

/-- Before the end of `condvar_signal` there is always a step on the way to it. -/
theorem exists_step (h : Inv s) (hend : s.main ≠ .getchar) :
    ∃ l s', step l s = some s' ∧ Inv s' ∧ rank s' < rank s := by
  cases hmain : s.main with
  | getchar => exact absurd hmain hend
  | load =>
      by_cases hcount : s.waitCount = 0
      · exact ⟨.main, _, by simp only [step, hmain, hcount, if_true], (MainMoves.none hmain hcount).inv h,
          rank_main (by rw [hmain]; simp [MainPc.left])⟩
      · exact ⟨.main, _, by simp only [step, hmain, hcount, if_false], (MainMoves.some hmain hcount).inv h,
          rank_main (by rw [hmain]; simp [MainPc.left])⟩
  | set =>
      exact ⟨.main, _, by simp only [step, hmain], (MainMoves.set hmain).inv h,
        rank_main (by rw [hmain]; simp [MainPc.left])⟩
  | unlock =>
      refine ⟨.main, _, by simp only [step, hmain], (MainMoves.unlock hmain).inv h, rank_main ?_⟩
      rw [hmain]
      cases hset : s.isEventSet <;> simp [MainPc.left]
  | clear =>
      exact ⟨.main, _, by simp only [step, hmain], (MainMoves.clear hmain).inv h,
        rank_main (by rw [hmain]; simp [MainPc.left])⟩
  | spin =>
      cases hset : s.isEventSet with
      | false =>
          exact ⟨.main, _, by simp only [step, hmain, hset, Bool.false_eq_true, if_false],
            (MainMoves.taken hmain hset).inv h, rank_main (by rw [hmain, hset]; simp [MainPc.left])⟩
      | true =>
          cases hlock : s.eventLock with
          | true =>
              obtain ⟨t, ht⟩ := h.exists_holds (by rw [hmain]; rfl) hlock
              obtain ⟨s', hstep, hmove, hrank⟩ := exists_moves_of_holds h (fun _ => hmain) ht
              exact ⟨.thread t, s', hstep, hmove.inv h, hrank⟩
          | false =>
              obtain ⟨t, ht⟩ := h.waiter (by rw [hmain, hset]; rfl)
              have hpc := h.lock_of_waits hlock ht
              exact ⟨.thread t, _, by simp only [step, hpc, hlock, Bool.false_eq_true, if_false],
                (Moves.lock hpc hlock).inv h, rank_goto (by rw [hpc, hset]; simp [Pc.left])⟩
  | lock =>
      cases hlock : s.eventLock with
      | false =>
          exact ⟨.main, _, by simp only [step, hmain, hlock, Bool.false_eq_true, if_false],
            (MainMoves.lock hmain hlock).inv h, rank_main (by rw [hmain]; simp [MainPc.left])⟩
      | true =>
          have hspin : s.isEventSet = true → s.main = .spin := fun hset => by
            rcases h.set hset with hold | hold <;> rw [hmain] at hold <;> cases hold
          obtain ⟨t, ht⟩ := h.exists_holds (by rw [hmain]; rfl) hlock
          obtain ⟨s', hstep, hmove, hrank⟩ := exists_moves_of_holds h hspin ht
          exact ⟨.thread t, s', hstep, hmove.inv h, hrank⟩

/-! ## The program -/

/-- **No event is lost, and none is processed twice**: in every interleaving one at most of `main` and the
    threads holds the mutex; each event was taken by one call of `condvar_wait`, but for the one that is
    still set; and `condvar_signal` does not return before a thread has taken its event. -/
theorem condvar_delivers (h : Reaches step (fun _ _ => True) (init : State T) s) :
    (∀ t u, (s.threads t).pc.holds = true → (s.threads u).pc.holds = true → u = t) ∧
      (∀ t, (s.threads t).pc.holds = true → s.main.holds = false) ∧
      s.signaled = ∑ t, (s.threads t).taken + s.isEventSet.toNat ∧
      (s.main = .getchar → s.signaled = ∑ t, (s.threads t).taken) := by
  have hinv := reaches_inv h
  refine ⟨fun t u => hinv.holds_unique, fun t ht => (hinv.thread_alone ht).1, hinv.taken, fun hmain => ?_⟩
  have hunset : s.isEventSet = false := by
    refine Bool.eq_false_iff.2 fun hset => ?_
    rcases hinv.set hset with hold | hold <;> rw [hmain] at hold <;> cases hold
  have htaken := hinv.taken
  rwa [hunset] at htaken

/-- The threads 1 and 2 wait, and `main` has set an event. -/
def oneSignal : List (Label (Fin 10)) :=
  [.thread 1, .thread 2, .main, .main, .main]

/-- `main` gives the mutex away, the thread 1 takes the event, and `main` comes back. -/
def oneEvent : List (Label (Fin 10)) :=
  oneSignal ++ [.main, .thread 1, .thread 1, .thread 1, .thread 1, .thread 1, .main, .main, .main]

theorem condvar_delivers_oneEvent :
    ∃ s, after step oneEvent init = some s ∧ s.main = .getchar ∧ s.signaled = 1 ∧
      (s.threads 1).taken = 1 ∧ (s.threads 2).taken = 0 ∧
      (∀ t u, (s.threads t).pc.holds = true → (s.threads u).pc.holds = true → u = t) ∧
      (∀ t, (s.threads t).pc.holds = true → s.main.holds = false) ∧
      s.signaled = ∑ t, (s.threads t).taken + s.isEventSet.toNat ∧
      (s.main = .getchar → s.signaled = ∑ t, (s.threads t).taken) :=
  ⟨_, rfl, rfl, rfl, rfl, rfl, condvar_delivers (reaches_of_after oneEvent .refl rfl)⟩

/-- **`condvar_signal` never waits for nobody**: while the event is set, a thread that can take it is in
    `condvar_wait`, and `main` can always come back to `getchar`. -/
theorem condvar_returns (h : Reaches step (fun _ _ => True) (init : State T) s) :
    (s.isEventSet = true → ∃ t, (s.threads t).pc.waits = true) ∧
      ∃ s', Reaches step (fun _ _ => True) s s' ∧ s'.main = .getchar := by
  have hinv := reaches_inv h
  refine ⟨fun hset => hinv.waiter ?_, ?_⟩
  · rcases hinv.set hset with hmain | hmain
    · rw [hmain]
      rfl
    · rw [hmain]
      exact hset
  · refine exists_final (fun {r s} (hs : r = rank s ∧ Inv s) hend => ?_) ⟨rfl, hinv⟩
    obtain ⟨rfl, hs⟩ := hs
    obtain ⟨l, s', hstep, hs', hrank⟩ := exists_step hs hend
    exact ⟨l, s', hstep, _, hrank, rfl, hs'⟩

theorem condvar_returns_oneSignal :
    ∃ s, after step oneSignal init = some s ∧ s.isEventSet = true ∧
      (s.isEventSet = true → ∃ t, (s.threads t).pc.waits = true) ∧
      ∃ s', Reaches step (fun _ _ => True) s s' ∧ s'.main = .getchar :=
  ⟨_, rfl, rfl, condvar_returns (reaches_of_after oneSignal .refl rfl)⟩

end Steps

end SysProg.Condvar
