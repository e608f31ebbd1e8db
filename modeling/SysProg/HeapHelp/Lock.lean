import SysProg.HeapHelp.Touch

set_option autoImplicit false

/-! # The lock of the first calls (`utils/heap_help/heap_help.c`)

What holds whatever the schedule is, also when threads take the lock late: `heaph_lock` admits one
thread at a time, `assert(global_lock)` never fails, and no thread leaves `heaph_touch` before
`heaph_init` was executed. Only `assert(!old)` can fail. -/

namespace SysProg.HeapHelp

open Interleaving

/-- Between `heaph_lock` and `heaph_unlock`. -/
def TouchPc.InSection : TouchPc → Prop
  | .init => True
  | .exchange => True
  | .assertLock _ => True
  | .clear _ => True
  | _ => False

/-- Behind the exchange of `is_done`, or the load that has found it set. -/
def TouchPc.Past : TouchPc → Prop
  | .assertLock _ => True
  | .clear _ => True
  | .assertOld _ => True
  | .returned => True
  | _ => False

section Steps

variable {T : Type} [DecidableEq T] {s s' : TouchState T} {t : T}

/-- Everything a step can do. -/
theorem touchStep_cases (h : touchStep t s = some s') :
    (∃ p, ¬ (s.pc t).InSection ∧ ¬ p.InSection ∧ (p.Past → (s.pc t).Past ∨ s.isDone = true) ∧
      s' = s.goto t p) ∨
    (TakesLock s t ∧ s' = { s.goto t .init with globalLock := true }) ∨
    (s.pc t = .init ∧ s' = { s.goto t .exchange with inits := s.inits + 1 }) ∨
    (s.pc t = .exchange ∧ s' = { s.goto t (.assertLock s.isDone) with isDone := true }) ∨
    (∃ old, s.pc t = .assertLock old ∧ s.globalLock = true ∧ s' = s.goto t (.clear old)) ∨
    (∃ old, s.pc t = .assertLock old ∧ s.globalLock = false ∧ s' = { s with aborted := true }) ∨
    (∃ old, s.pc t = .clear old ∧ s' = { s.goto t (.assertOld old) with globalLock := false }) ∨
    (s.pc t = .assertOld true ∧ s' = { s with aborted := true }) := by
  rw [touchStep] at h
  split at h
  · cases h
  cases hpc : s.pc t with
  | load =>
      rw [hpc] at h
      obtain rfl := Option.some.inj h
      refine Or.inl ⟨_, id, ?_, fun hpast => ?_, rfl⟩
      · split <;> exact id
      · by_cases hdone : s.isDone = true
        · exact Or.inr hdone
        · rw [if_neg hdone] at hpast
          exact hpast.elim
  | spin i =>
      simp only [hpc] at h
      split at h
      · next hi =>
          obtain rfl := Option.some.inj h
          cases hlock : s.globalLock with
          | false => exact Or.inr (Or.inl ⟨⟨⟨i, hi, hpc⟩, hlock⟩, by simp⟩)
          | true =>
              refine Or.inl ⟨.spin (i + 1), id, id, False.elim, ?_⟩
              rw [if_pos rfl, ← hlock]
              rfl
      · obtain rfl := Option.some.inj h
        exact Or.inl ⟨.spin 0, id, id, False.elim, rfl⟩
  | init =>
      simp only [hpc] at h
      exact Or.inr (Or.inr (Or.inl ⟨rfl, (Option.some.inj h).symm⟩))
  | exchange =>
      simp only [hpc] at h
      exact Or.inr (Or.inr (Or.inr (Or.inl ⟨rfl, (Option.some.inj h).symm⟩)))
  | assertLock old =>
      simp only [hpc] at h
      split at h
      · next hlock =>
          exact Or.inr (Or.inr (Or.inr (Or.inr (Or.inl ⟨old, rfl, hlock, (Option.some.inj h).symm⟩))))
      · next hlock =>
          exact Or.inr (Or.inr (Or.inr (Or.inr (Or.inr (Or.inl ⟨old, rfl,
            Bool.eq_false_iff.2 hlock, (Option.some.inj h).symm⟩)))))
  | clear old =>
      simp only [hpc] at h
      exact Or.inr (Or.inr (Or.inr (Or.inr (Or.inr (Or.inr (Or.inl
        ⟨old, rfl, (Option.some.inj h).symm⟩))))))
  | assertOld old =>
      simp only [hpc] at h
      split at h
      · next hold =>
          rw [hold]
          exact Or.inr (Or.inr (Or.inr (Or.inr (Or.inr (Or.inr (Or.inr
            ⟨rfl, (Option.some.inj h).symm⟩))))))
      · exact Or.inl ⟨.returned, id, id, fun _ => Or.inl trivial, (Option.some.inj h).symm⟩
  | returned =>
      simp only [hpc] at h
      exact Or.inl ⟨.load, id, id, False.elim, (Option.some.inj h).symm⟩

/-- The lock is held by the thread in the critical section, if there is one. -/
structure Excludes (s : TouchState T) (holder : Option T) : Prop where
  lock : s.globalLock = holder.isSome
  section_iff : ∀ u, (s.pc u).InSection ↔ holder = some u
  past : ∀ u, (s.pc u).Past → s.isDone = true
  aborted : s.aborted = true → ∃ u, s.pc u = .assertOld true

/-- A thread goes to `p`, and then the lock is held by `holder'`. -/
theorem Excludes.goto {holder : Option T} (h : Excludes s holder) (t : T) (p : TouchPc)
    (holder' : Option T) (ht : p.InSection ↔ holder' = some t)
    (hothers : ∀ u, u ≠ t → (holder = some u ↔ holder' = some u)) (done : Bool)
    (hdone : s.isDone = true → done = true) (hp : p.Past → done = true)
    (hrun : s.aborted = false) :
    Excludes { s.goto t p with globalLock := holder'.isSome, isDone := done } holder' := by
  refine ⟨rfl, fun u => ?_, fun u hu => ?_, fun habort => ?_⟩
  · by_cases hut : u = t
    · subst hut
      exact (iff_of_eq (congrArg _ goto_self)).trans ht
    · exact (iff_of_eq (congrArg _ (goto_ne hut))).trans ((h.section_iff u).trans (hothers u hut))
  · by_cases hut : u = t
    · subst hut
      have hpc : (s.goto u p).pc u = p := goto_self
      exact hp (hpc ▸ hu)
    · have hpc : (s.goto t p).pc u = s.pc u := goto_ne hut
      exact hdone (h.past u (hpc ▸ hu))
  · exact absurd (hrun.symm.trans habort) (by decide)

/-- **A step keeps the exclusion.** -/
theorem touchStep_excludes {holder : Option T} (h : Excludes s holder)
    (hstep : touchStep t s = some s') : ∃ holder', Excludes s' holder' := by
  have hrun : s.aborted = false := by
    by_contra habort
    rw [touchStep, if_pos (by simpa using habort)] at hstep
    cases hstep
  rcases touchStep_cases hstep with ⟨p, hout, hp, hpast, rfl⟩ | ⟨⟨⟨i, -, hpc⟩, hlock⟩, rfl⟩ |
    ⟨hpc, rfl⟩ | ⟨hpc, rfl⟩ | ⟨old, hpc, hlock, rfl⟩ | ⟨old, hpc, hlock, rfl⟩ | ⟨old, hpc, rfl⟩ |
    ⟨hpc, rfl⟩
  · -- outside the section nothing changes
    have hnot : holder ≠ some t := fun he => hout ((h.section_iff t).2 he)
    refine ⟨holder, ?_⟩
    have hnext := h.goto t p holder (iff_of_false hp hnot) (fun u _ => Iff.rfl) s.isDone id
      (fun hpst => (hpast hpst).elim (h.past t) id) hrun
    rw [← h.lock] at hnext
    exact hnext
  · -- the lock is taken
    have hnone : holder = none := by
      have hl := h.lock
      rw [hlock] at hl
      cases holder with
      | none => rfl
      | some u => cases hl
    subst hnone
    refine ⟨some t, ?_⟩
    exact h.goto t .init (some t) (iff_of_true trivial rfl)
      (fun u hu => iff_of_false (by simp) (by simpa using Ne.symm hu)) s.isDone id False.elim hrun
  · have hme : holder = some t := (h.section_iff t).1 (by rw [hpc]; trivial)
    refine ⟨holder, ?_⟩
    have hnext := h.goto t .exchange holder (iff_of_true trivial hme) (fun u _ => Iff.rfl) s.isDone id
      False.elim hrun
    rw [← h.lock] at hnext
    exact ⟨hnext.lock, hnext.section_iff, hnext.past, hnext.aborted⟩
  · have hme : holder = some t := (h.section_iff t).1 (by rw [hpc]; trivial)
    refine ⟨holder, ?_⟩
    have hnext := h.goto t (.assertLock s.isDone) holder (iff_of_true trivial hme)
      (fun u _ => Iff.rfl) true (fun _ => rfl) (fun _ => rfl) hrun
    rw [← h.lock] at hnext
    exact hnext
  · have hme : holder = some t := (h.section_iff t).1 (by rw [hpc]; trivial)
    refine ⟨holder, ?_⟩
    have hnext := h.goto t (.clear old) holder (iff_of_true trivial hme) (fun u _ => Iff.rfl)
      s.isDone id (fun _ => h.past t (by rw [hpc]; trivial)) hrun
    rw [← h.lock] at hnext
    exact hnext
  · -- the lock is held by the thread that is about to clear it
    have hme : holder = some t := (h.section_iff t).1 (by rw [hpc]; trivial)
    rw [h.lock, hme] at hlock
    cases hlock
  · have hme : holder = some t := (h.section_iff t).1 (by rw [hpc]; trivial)
    subst hme
    refine ⟨none, ?_⟩
    exact h.goto t (.assertOld old) none (iff_of_false id (by simp))
      (fun u hu => iff_of_false (by simpa using Ne.symm hu) (by simp)) s.isDone id
      (fun _ => h.past t (by rw [hpc]; trivial)) hrun
  · exact ⟨holder, h.lock, h.section_iff, h.past, fun _ => ⟨t, hpc⟩⟩

end Steps

/-- **The lock excludes**: in every interleaving of any number of threads at most one of them is
    between `heaph_lock` and `heaph_unlock`, `assert(global_lock)` finds the lock held, a thread
    returns from `heaph_touch` only when `heaph_init` was executed, and if the program is aborted it is
    by `assert(!old)`. -/
theorem heaphLock_excludes {T : Type} [DecidableEq T] {s : TouchState T}
    (h : Reaches touchStep (fun _ _ => True) touchStart s) :
    (∀ t u, (s.pc t).InSection → (s.pc u).InSection → t = u) ∧
      (∀ t old, s.pc t = .assertLock old → s.globalLock = true) ∧
      (∀ t, s.pc t = .returned → 1 ≤ s.inits) ∧
      (s.aborted = true → ∃ t, s.pc t = .assertOld true) := by
  have hinv : (∃ holder, Excludes s holder) ∧ Initialized s := by
    refine Reaches.invariant (fun s => (∃ holder, Excludes s holder) ∧ Initialized s) ?_ ?_ h
    · rintro s t s' ⟨⟨holder, hs⟩, hinit⟩ - hstep
      exact ⟨touchStep_excludes hs hstep, touchStep_initialized hinit hstep⟩
    · refine ⟨⟨none, rfl, fun u => iff_of_false id (by simp), fun u => False.elim, ?_⟩, ?_⟩
      · rintro ⟨⟩
      · rintro (hdone | ⟨u, hu⟩)
        · cases hdone
        · cases hu
  obtain ⟨⟨holder, hex⟩, hinit⟩ := hinv
  refine ⟨fun t u ht hu => ?_, fun t old hpc => ?_, fun t hpc => ?_, hex.aborted⟩
  · exact Option.some.inj (((hex.section_iff t).1 ht).symm.trans ((hex.section_iff u).1 hu))
  · rw [hex.lock, (hex.section_iff t).1 (by rw [hpc]; trivial)]
    rfl
  · exact hinit (Or.inl (hex.past t (by rw [hpc]; trivial)))

/-- The race in which `heaph_init` is executed twice. -/
theorem heaphLock_excludes_race :
    ∃ s, after touchStep race touchStart = some s ∧ s.inits = 2 ∧
      (∀ t u, (s.pc t).InSection → (s.pc u).InSection → t = u) ∧
      (∀ t old, s.pc t = .assertLock old → s.globalLock = true) ∧
      (∀ t, s.pc t = .returned → 1 ≤ s.inits) ∧
      (s.aborted = true → ∃ t, s.pc t = .assertOld true) :=
  ⟨_, rfl, rfl, heaphLock_excludes (reaches_of_after race .refl rfl)⟩

end SysProg.HeapHelp
