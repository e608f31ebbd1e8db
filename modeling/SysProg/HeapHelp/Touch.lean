import SysProg.Lib.Interleaving

set_option autoImplicit false

/-! # Concurrent first calls (`utils/heap_help/heap_help.c`)

`heaph_touch`, `heaph_lock` and `heaph_unlock` step by step, each atomic access of a shared variable
being one step, in any number of threads. `is_done` is tested before the lock is taken and not again
afterwards: a thread that has found it unset, and then waits for the lock, initialises once more. -/

namespace SysProg.HeapHelp

open Interleaving

/-! ## The threads -/

/-- The next step of a thread in `heaph_touch`. -/
inductive TouchPc where
  /-- The load of `is_done`. -/
  | load
  /-- In `heaph_lock`, after `i` attempts since it was called or last slept. -/
  | spin (i : Nat)
  /-- `heaph_init`. -/
  | init
  /-- The exchange of `is_done`. -/
  | exchange
  /-- `assert(global_lock)` in `heaph_unlock`. -/
  | assertLock (old : Bool)
  /-- The clear of `global_lock`. -/
  | clear (old : Bool)
  /-- `assert(!old)`. -/
  | assertOld (old : Bool)
  | returned
deriving DecidableEq

/-- The shared variables, where each thread is, and how often `heaph_init` was executed. -/
structure TouchState (T : Type) where
  isDone : Bool
  globalLock : Bool
  pc : T → TouchPc
  inits : Nat
  /-- An assertion has failed. -/
  aborted : Bool

variable {T : Type} [DecidableEq T]

/-- The thread `t` is at `p` next. -/
def TouchState.goto (s : TouchState T) (t : T) (p : TouchPc) : TouchState T :=
  { s with pc := Function.update s.pc t p }

/-- The next step of the thread `t`. A thread that has returned makes its next call. -/
def touchStep (t : T) (s : TouchState T) : Option (TouchState T) :=
  if s.aborted then none
  else
    match s.pc t with
    | .load => some (s.goto t (if s.isDone then .returned else .spin 0))
    | .spin i =>
      if i < 1000 then
        some { s.goto t (if s.globalLock then .spin (i + 1) else .init) with globalLock := true }
      else some (s.goto t (.spin 0))
    | .init => some { s.goto t .exchange with inits := s.inits + 1 }
    | .exchange => some { s.goto t (.assertLock s.isDone) with isDone := true }
    | .assertLock old =>
      if s.globalLock then some (s.goto t (.clear old)) else some { s with aborted := true }
    | .clear old => some { s.goto t (.assertOld old) with globalLock := false }
    | .assertOld old =>
      if old then some { s with aborted := true } else some (s.goto t .returned)
    | .returned => some (s.goto t .load)

/-- Every thread is about to make its first call. -/
def touchStart : TouchState T :=
  { isDone := false, globalLock := false, pc := fun _ => .load, inits := 0, aborted := false }

/-- The next step of `t` takes the lock. -/
def TakesLock (s : TouchState T) (t : T) : Prop :=
  (∃ i < 1000, s.pc t = .spin i) ∧ s.globalLock = false

/-- The next step of `t` does not take the lock after `is_done` was set. -/
def InTime (s : TouchState T) (t : T) : Prop := TakesLock s t → s.isDone = false

/-- `heaph_init` was not executed twice, it was before any call returned, and no assertion failed. -/
def InitOnce (s : TouchState T) : Prop :=
  s.aborted = false ∧ s.inits ≤ 1 ∧ ((∃ t, s.pc t = .returned) → s.inits = 1)

/-! ## The phases of the initialisation -/

/-- In front of the critical section. -/
def TouchPc.Waiting (p : TouchPc) : Prop := p = .load ∨ ∃ i, p = .spin i

/-- Outside the critical section. -/
def TouchPc.Outside (p : TouchPc) : Prop := p.Waiting ∨ p = .assertOld false ∨ p = .returned

/-- How far the initialisation is, while all threads take the lock in time. -/
inductive Phase (s : TouchState T) : Prop where
  | before (hdone : s.isDone = false) (hlock : s.globalLock = false) (hinits : s.inits = 0)
      (hpc : ∀ u, (s.pc u).Waiting)
  | entered (t : T) (hdone : s.isDone = false) (hlock : s.globalLock = true)
      (ht : (s.pc t = .init ∧ s.inits = 0) ∨ (s.pc t = .exchange ∧ s.inits = 1))
      (hpc : ∀ u, u ≠ t → (s.pc u).Waiting)
  | leaving (t : T) (hdone : s.isDone = true) (hlock : s.globalLock = true) (hinits : s.inits = 1)
      (ht : s.pc t = .assertLock false ∨ s.pc t = .clear false)
      (hpc : ∀ u, u ≠ t → (s.pc u).Outside)
  | after (hdone : s.isDone = true) (hlock : s.globalLock = false) (hinits : s.inits = 1)
      (hpc : ∀ u, (s.pc u).Outside)

theorem TouchPc.Waiting.outside {p : TouchPc} (h : p.Waiting) : p.Outside := Or.inl h

section Steps

variable {s s' : TouchState T} {t v : T} {p : TouchPc}

theorem goto_self : (s.goto t p).pc t = p := Function.update_self ..

theorem goto_ne {u : T} (h : u ≠ t) : (s.goto t p).pc u = s.pc u := Function.update_of_ne h ..

theorem goto_others {P : TouchPc → Prop} (h : ∀ u, u ≠ v → P (s.pc u)) (hp : P p) :
    ∀ u, u ≠ v → P ((s.goto t p).pc u) := by
  intro u hu
  by_cases hut : u = t
  · rw [hut, goto_self]
    exact hp
  · rw [goto_ne hut]
    exact h u hu

theorem goto_same {P : TouchPc → Prop} (h : ∀ u, u ≠ t → P (s.pc u)) :
    ∀ u, u ≠ t → P ((s.goto t p).pc u) := by
  intro u hu
  rw [goto_ne hu]
  exact h u hu

theorem goto_all {P : TouchPc → Prop} (h : ∀ u, u ≠ t → P (s.pc u)) (hp : P p) :
    ∀ u, P ((s.goto t p).pc u) := by
  intro u
  by_cases hut : u = t
  · rw [hut, goto_self]
    exact hp
  · exact goto_same h u hut

/-- A thread outside the critical section stays there or takes the lock. -/
theorem touchStep_outside (hrun : s.aborted = false) (ht : (s.pc t).Outside)
    (hstep : touchStep t s = some s') :
    (∃ p, s' = s.goto t p ∧ p.Outside ∧ (s.isDone = false → (s.pc t).Waiting → p.Waiting)) ∨
    (TakesLock s t ∧ s' = { s.goto t .init with globalLock := true }) := by
  rw [touchStep, if_neg (by simp [hrun])] at hstep
  rcases ht with (hpc | ⟨i, hpc⟩) | hpc | hpc
  · rw [hpc] at hstep
    obtain rfl := Option.some.inj hstep
    refine Or.inl ⟨_, rfl, ?_, fun hdone _ => ?_⟩
    · split
      · exact Or.inr (Or.inr rfl)
      · exact Or.inl (Or.inr ⟨0, rfl⟩)
    · rw [if_neg (by simp [hdone])]
      exact Or.inr ⟨0, rfl⟩
  · simp only [hpc] at hstep
    split at hstep
    · next hi =>
        obtain rfl := Option.some.inj hstep
        cases hlock : s.globalLock with
        | false => exact Or.inr ⟨⟨⟨i, hi, hpc⟩, hlock⟩, by simp⟩
        | true =>
            have hwait : TouchPc.Waiting (.spin (i + 1)) := Or.inr ⟨_, rfl⟩
            refine Or.inl ⟨.spin (i + 1), ?_, hwait.outside, fun _ _ => hwait⟩
            rw [if_pos rfl, ← hlock]
            rfl
    · obtain rfl := Option.some.inj hstep
      have hwait : TouchPc.Waiting (.spin 0) := Or.inr ⟨_, rfl⟩
      exact Or.inl ⟨_, rfl, hwait.outside, fun _ _ => hwait⟩
  · simp only [hpc] at hstep
    obtain rfl := Option.some.inj hstep
    refine Or.inl ⟨_, rfl, Or.inr (Or.inr rfl), fun _ hwait => ?_⟩
    rw [hpc] at hwait
    rcases hwait with h | ⟨_, h⟩ <;> cases h
  · simp only [hpc] at hstep
    obtain rfl := Option.some.inj hstep
    have hwait : TouchPc.Waiting .load := Or.inl rfl
    exact Or.inl ⟨_, rfl, hwait.outside, fun _ _ => hwait⟩

/-- A step of a thread that takes the lock in time keeps the phases in order. -/
theorem touchStep_phase (hrun : s.aborted = false) (hphase : Phase s) (hok : InTime s t)
    (hstep : touchStep t s = some s') : s'.aborted = false ∧ Phase s' := by
  cases hphase with
  | before hdone hlock hinits hpc =>
      rcases touchStep_outside hrun (hpc t).outside hstep with ⟨p, rfl, -, hp⟩ | ⟨-, rfl⟩
      · exact ⟨hrun, .before hdone hlock hinits (goto_all (fun u _ => hpc u) (hp hdone (hpc t)))⟩
      · exact ⟨hrun, .entered t hdone rfl (Or.inl ⟨goto_self, hinits⟩)
          (goto_same fun u _ => hpc u)⟩
  | entered v hdone hlock hv hpc =>
      by_cases htv : t = v
      · subst htv
        rw [touchStep, if_neg (by simp [hrun])] at hstep
        rcases hv with ⟨hv, hinits⟩ | ⟨hv, hinits⟩
        · simp only [hv] at hstep
          obtain rfl := Option.some.inj hstep
          refine ⟨hrun, .entered t hdone hlock (Or.inr ⟨goto_self, ?_⟩) (goto_same hpc)⟩
          simp only [hinits]
        · simp only [hv, hdone] at hstep
          obtain rfl := Option.some.inj hstep
          exact ⟨hrun, .leaving t rfl hlock hinits (Or.inl goto_self)
            (goto_same fun u hu => (hpc u hu).outside)⟩
      · rcases touchStep_outside hrun (hpc t htv).outside hstep with ⟨p, rfl, -, hp⟩ | ⟨htake, -⟩
        · refine ⟨hrun, .entered v hdone hlock ?_ (goto_others hpc (hp hdone (hpc t htv)))⟩
          rw [goto_ne (Ne.symm htv)]
          exact hv
        · exact absurd (hlock.symm.trans htake.2) (by decide)
  | leaving v hdone hlock hinits hv hpc =>
      by_cases htv : t = v
      · subst htv
        rw [touchStep, if_neg (by simp [hrun])] at hstep
        rcases hv with hv | hv
        · simp only [hv, hlock, if_true] at hstep
          obtain rfl := Option.some.inj hstep
          exact ⟨hrun, .leaving t hdone hlock hinits (Or.inr goto_self) (goto_same hpc)⟩
        · simp only [hv] at hstep
          obtain rfl := Option.some.inj hstep
          exact ⟨hrun, .after hdone rfl hinits (goto_all hpc (Or.inr (Or.inl rfl)))⟩
      · rcases touchStep_outside hrun (hpc t htv) hstep with ⟨p, rfl, hp, -⟩ | ⟨htake, -⟩
        · refine ⟨hrun, .leaving v hdone hlock hinits ?_ (goto_others hpc hp)⟩
          rw [goto_ne (Ne.symm htv)]
          exact hv
        · exact absurd (hlock.symm.trans htake.2) (by decide)
  | after hdone hlock hinits hpc =>
      rcases touchStep_outside hrun (hpc t) hstep with ⟨p, rfl, hp, -⟩ | ⟨htake, -⟩
      · exact ⟨hrun, .after hdone hlock hinits (goto_all (fun u _ => hpc u) hp)⟩
      · exact absurd (hdone.symm.trans (hok htake)) (by decide)

/-- Before the initialisation no call has returned, and after it it was executed once. -/
theorem Phase.initOnce (hrun : s.aborted = false) (hphase : Phase s) : InitOnce s := by
  have hwaiting : ∀ u, (s.pc u).Waiting → s.pc u ≠ .returned := by
    rintro u (h | ⟨i, h⟩) hret <;> rw [hret] at h <;> cases h
  cases hphase with
  | before hdone hlock hinits hpc =>
      exact ⟨hrun, by omega, fun ⟨u, hu⟩ => absurd hu (hwaiting u (hpc u))⟩
  | entered v hdone hlock hv hpc =>
      refine ⟨hrun, by omega, fun ⟨u, hu⟩ => ?_⟩
      by_cases huv : u = v
      · subst huv
        rcases hv with ⟨hv, -⟩ | ⟨hv, -⟩ <;> rw [hu] at hv <;> cases hv
      · exact absurd hu (hwaiting u (hpc u huv))
  | leaving v hdone hlock hinits hv hpc => exact ⟨hrun, by omega, fun _ => hinits⟩
  | after hdone hlock hinits hpc => exact ⟨hrun, by omega, fun _ => hinits⟩

end Steps

/-- **The first call initialises**: in every interleaving of any number of threads in which nobody
    takes the lock after `is_done` was set, `heaph_init` is executed once, before any call returns,
    and no assertion fails. -/
theorem heaphTouch_initOnce {s : TouchState T}
    (h : Reaches touchStep InTime touchStart s) : InitOnce s := by
  have hinv : s.aborted = false ∧ Phase s := by
    refine Reaches.invariant (fun s => s.aborted = false ∧ Phase s) ?_ ?_ h
    · exact fun s t s' hs hok hstep => touchStep_phase hs.1 hs.2 hok hstep
    · exact ⟨rfl, .before rfl rfl rfl fun _ => Or.inl rfl⟩
  exact hinv.2.initOnce hinv.1

/-- The first thread initialises and returns, and the second one finds `is_done` set. -/
theorem heaphTouch_initOnce_second :
    ∃ s, after touchStep [false, false, false, false, false, false, false, true] touchStart = some s ∧
      s.pc false = .returned ∧ s.pc true = .returned ∧ s.inits = 1 ∧ InitOnce s := by
  -- a step that is not one of `heaph_lock`
  have hother : ∀ {s : TouchState Bool} {t : Bool}, (∀ i, s.pc t ≠ .spin i) → InTime s t := by
    rintro s t hpc ⟨⟨i, -, hi⟩, -⟩
    exact absurd hi (hpc i)
  -- up to the exchange every step is in time
  have hset : Reaches touchStep InTime touchStart
      ((after touchStep [false, false, false, false] touchStart).getD touchStart) :=
    .tail (l := false) (.tail (l := false) (.tail (l := false) (.tail (l := false) .refl
      (fun _ => rfl) rfl) (fun _ => rfl) rfl) (fun _ => rfl) rfl) (fun _ => rfl) rfl
  refine ⟨_, rfl, rfl, rfl, rfl, heaphTouch_initOnce ?_⟩
  refine .tail (l := true) (.tail (l := false) (.tail (l := false) (.tail (l := false) hset ?_ rfl)
    ?_ rfl) ?_ rfl) ?_ rfl
  all_goals exact hother fun i => by simp [touchStart, after, touchStep, TouchState.goto]

/-! ## Late threads -/

section Late

variable {s s' : TouchState T} {t : T} {p : TouchPc}

theorem exchange_goto (hp : p ≠ .exchange) (h : ∃ u, (s.goto t p).pc u = .exchange) :
    ∃ u, s.pc u = .exchange := by
  obtain ⟨u, hu⟩ := h
  by_cases hut : u = t
  · rw [hut, goto_self] at hu
    exact absurd hu hp
  · rw [goto_ne hut] at hu
    exact ⟨u, hu⟩

/-- When `is_done` is set, or about to be set, `heaph_init` was executed. -/
def Initialized (s : TouchState T) : Prop :=
  (s.isDone = true ∨ ∃ u, s.pc u = .exchange) → 1 ≤ s.inits

theorem touchStep_initialized (h : Initialized s) (hstep : touchStep t s = some s') :
    Initialized s' := by
  have hgoto : ∀ p, p ≠ .exchange → Initialized (s.goto t p) := fun p hp hset =>
    h (hset.imp_right (exchange_goto hp))
  unfold touchStep at hstep
  split at hstep
  · cases hstep
  · split at hstep
    · obtain rfl := Option.some.inj hstep
      refine hgoto _ ?_
      split <;> simp
    · split at hstep
      · obtain rfl := Option.some.inj hstep
        refine hgoto _ ?_
        split <;> simp
      · obtain rfl := Option.some.inj hstep
        exact hgoto _ (by simp)
    · obtain rfl := Option.some.inj hstep
      exact fun _ => Nat.succ_le_succ (Nat.zero_le _)
    · next hpc =>
        obtain rfl := Option.some.inj hstep
        exact fun _ => h (Or.inr ⟨t, hpc⟩)
    · split at hstep
      · obtain rfl := Option.some.inj hstep
        exact hgoto _ (by simp)
      · obtain rfl := Option.some.inj hstep
        exact h
    · obtain rfl := Option.some.inj hstep
      exact hgoto _ (by simp)
    · split at hstep
      · obtain rfl := Option.some.inj hstep
        exact h
      · obtain rfl := Option.some.inj hstep
        exact hgoto _ (by simp)
    · obtain rfl := Option.some.inj hstep
      exact hgoto _ (by simp)

/-- A thread that takes the lock late executes `heaph_init` once more. -/
theorem late_not_initOnce (h : Reaches touchStep (fun _ _ => True) touchStart s)
    (hrun : s.aborted = false) (hlate : ¬ InTime s t) :
    ∃ s', after touchStep [t, t] s = some s' ∧ ¬ InitOnce s' := by
  have hinit : Initialized s := by
    refine Reaches.invariant Initialized ?_ ?_ h
    · exact fun s t s' hs _ hstep => touchStep_initialized hs hstep
    · rintro (hdone | ⟨u, hu⟩)
      · cases hdone
      · cases hu
  obtain ⟨⟨⟨i, hi, hpc⟩, hlock⟩, hdone⟩ := Classical.not_imp.1 hlate
  have hfirst : touchStep t s = some { s.goto t .init with globalLock := true } := by
    simp [touchStep, hrun, hpc, hi, hlock]
  have hsecond : ∃ s', touchStep t { s.goto t .init with globalLock := true } = some s' ∧
      s'.inits = s.inits + 1 := by
    simp [touchStep, hrun, TouchState.goto]
  obtain ⟨s', hstep, hinits⟩ := hsecond
  refine ⟨s', by simp [after, hfirst, hstep], fun hinv => ?_⟩
  have hone := hinv.2.1
  have hpos := hinit (Or.inl (Bool.not_eq_false _ ▸ hdone))
  omega

end Late

/-- Two threads test `is_done` before either of them sets it. -/
def race : List Bool :=
  [false, true, false, false, false, false, false, false, true, true, true, true, true, true]

theorem heaphTouch_race :
    ¬ ∀ (T : Type) [DecidableEq T] (s : TouchState T),
      Reaches touchStep (fun _ _ => True) touchStart s → InitOnce s := by
  intro hall
  obtain ⟨s, hs, habort⟩ : ∃ s, after touchStep race touchStart = some s ∧ s.aborted = true :=
    ⟨_, rfl, rfl⟩
  have hinit := hall Bool s (reaches_of_after race .refl hs)
  exact absurd (hinit.1.symm.trans habort) (by decide)

end SysProg.HeapHelp
