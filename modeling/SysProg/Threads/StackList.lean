import SysProg.Threads.Detach

set_option autoImplicit false

/-! # No stack is freed twice, or too early (`lecture_examples/6_threads/12_cthread_detach.c`)

What holds of all threads together: which stacks are on the list, which were freed, and which one of the
callers of `cthread_destroy` is at the list. -/

namespace SysProg.Detach

open Interleaving
open scoped BigOperators

variable {T : Type}

/-! ## Steps -/

section Moves

variable [DecidableEq T] {joins : T → Bool} {code : T → Int} {s s' : State T} {t : T} {role : Role}

/-- What a step of the thread `t` or of its agent does. -/
inductive Moves (joins : T → Bool) (code : T → Int) (s : State T) (t : T) (role : Role) : State T → Prop
  | create (hpc : (s.threads t).pc role = .create) :
      Moves joins code s t role (s.set t ({ s.threads t with
        runner := Pc.func, agent := if joins t then Pc.wait else Pc.lock } : Cthread T))
  | func (hpc : (s.threads t).pc role = .func) :
      Moves joins code s t role
        (s.set t { (s.threads t).goto role .lock with returnedCode := code t })
  | lock (hpc : (s.threads t).pc role = .lock) (hfree : (s.threads t).lock = false) :
      Moves joins code s t role (s.set t { (s.threads t).goto role .test with lock := true })
  | second (hpc : (s.threads t).pc role = .test) (hflag : (s.threads t).otherFlag role = true) :
      Moves joins code s t role (s.set t { (s.threads t).goto role (.destroy .lock) with
        destroyed := (s.threads t).destroyed + 1 })
  | first (hpc : (s.threads t).pc role = .test) (hflag : (s.threads t).otherFlag role = false) :
      Moves joins code s t role (s.set t ((s.threads t).goto role .mark))
  | mark (hpc : (s.threads t).pc role = .mark) :
      Moves joins code s t role (s.set t (((s.threads t).setFlag role).goto role .unlock))
  | unlock (hpc : (s.threads t).pc role = .unlock) :
      Moves joins code s t role
        (s.set t { (s.threads t).goto role (afterUnlock role) with lock := false })
  | exit (hpc : (s.threads t).pc role = .exit) :
      Moves joins code s t role (s.set t { (s.threads t).goto role .gone with exited := true })
  | wait (hpc : (s.threads t).pc role = .wait) (hflag : (s.threads t).isFinished = true) :
      Moves joins code s t role (s.set t { (s.threads t).goto role (.destroy .lock) with
        destroyed := (s.threads t).destroyed + 1 })
  | read (hpc : (s.threads t).pc role = .read) :
      Moves joins code s t role (s.set t { (s.threads t).goto role .joined with
        result := some (s.threads t).returnedCode })
  | lockList (hpc : (s.threads t).pc role = .destroy .lock) (hfree : s.lastStackLock = false) :
      Moves joins code s t role
        { s.set t ((s.threads t).goto role (.destroy .take)) with lastStackLock := true }
  | take (hpc : (s.threads t).pc role = .destroy .take) :
      Moves joins code s t role (s.set t ((s.threads t).goto role (.destroy (.walk s.stackList))))
  | free (u : T) (iter : List T) (hpc : (s.threads t).pc role = .destroy (.walk (u :: iter)))
      (hexited : (s.threads u).exited = true) :
      Moves joins code s t role
        { s.set t ((s.threads t).goto role (.destroy (.walk iter))) with freed := s.freed ++ [u] }
  | stop (iter : List T) (hpc : (s.threads t).pc role = .destroy (.walk iter)) :
      Moves joins code s t role (s.set t ((s.threads t).goto role (.destroy (.push iter))))
  | push (iter : List T) (hpc : (s.threads t).pc role = .destroy (.push iter)) :
      Moves joins code s t role
        { s.set t ((s.threads t).goto role (.destroy .unlock)) with stackList := t :: iter }
  | unlockList (hpc : (s.threads t).pc role = .destroy .unlock) :
      Moves joins code s t role
        { s.set t ((s.threads t).goto role (afterDestroy (joins t) role)) with lastStackLock := false }

omit [DecidableEq T] in
theorem goto_pc (c : Cthread T) (role : Role) : c.goto role (c.pc role) = c := by
  cases role <;> rfl

theorem set_threads (s : State T) (t : T) : s.set t (s.threads t) = s := by
  rw [State.set, Function.update_eq_self]

/-- Everything a step can do. -/
theorem step_cases (h : step joins code (t, role) s = some s') :
    s' = s ∨ Moves joins code s t role s' := by
  simp only [step] at h
  split at h
  · next hpc => exact Or.inr (Option.some.inj h ▸ .create hpc)
  · next hpc => exact Or.inr (Option.some.inj h ▸ .func hpc)
  · next hpc =>
      obtain rfl := Option.some.inj h
      split
      · exact Or.inl rfl
      · next hlock => exact Or.inr (.lock hpc (Bool.eq_false_iff.2 hlock))
  · next hpc =>
      obtain rfl := Option.some.inj h
      split
      · next hflag => exact Or.inr (.second hpc hflag)
      · next hflag => exact Or.inr (.first hpc (Bool.eq_false_iff.2 hflag))
  · next d hpc =>
      cases d with
      | lock =>
          by_cases hheld : s.lastStackLock = true
          · simp only [destroyStep, hheld, if_true] at h
            rw [← hpc, goto_pc, set_threads] at h
            exact Or.inl (Option.some.inj h).symm
          · simp only [destroyStep, hheld, Bool.false_eq_true, if_false] at h
            exact Or.inr (Option.some.inj h ▸ .lockList hpc (Bool.eq_false_iff.2 hheld))
      | take => exact Or.inr (Option.some.inj h ▸ .take hpc)
      | walk iter =>
          cases iter with
          | nil => exact Or.inr (Option.some.inj h ▸ .stop [] hpc)
          | cons u iter =>
              by_cases hfreed : u ∈ s.freed
              · simp only [destroyStep, hfreed, if_true] at h
                cases h
              · by_cases hexited : (s.threads u).exited = true
                · simp only [destroyStep, hfreed, if_false, hexited, if_true] at h
                  exact Or.inr (Option.some.inj h ▸ .free u iter hpc hexited)
                · simp only [destroyStep, hfreed, if_false, hexited, Bool.false_eq_true] at h
                  exact Or.inr (Option.some.inj h ▸ .stop (u :: iter) hpc)
      | push iter =>
          by_cases hfreed : t ∈ s.freed
          · simp only [destroyStep, hfreed, if_true] at h
            cases h
          · simp only [destroyStep, hfreed, if_false] at h
            exact Or.inr (Option.some.inj h ▸ .push iter hpc)
      | unlock => exact Or.inr (Option.some.inj h ▸ .unlockList hpc)
  · next hpc => exact Or.inr (Option.some.inj h ▸ .mark hpc)
  · next hpc => exact Or.inr (Option.some.inj h ▸ .unlock hpc)
  · next hpc => exact Or.inr (Option.some.inj h ▸ .exit hpc)
  · next hpc =>
      obtain rfl := Option.some.inj h
      split
      · next hflag => exact Or.inr (.wait hpc hflag)
      · exact Or.inl rfl
  · next hpc => exact Or.inr (Option.some.inj h ▸ .read hpc)
  · cases h
  · cases h
  · cases h

/-- **A step keeps what holds of its thread.** -/
theorem Moves.local (h : Local (joins t) (code t) (s.threads t)) (hmove : Moves joins code s t role s') :
    Local (joins t) (code t) (s'.threads t) := by
  have hrunner := h.runner
  have hagent := h.agent
  have hset : ∀ c : Cthread T, Local (joins t) (code t) c →
      Local (joins t) (code t) (Function.update s.threads t c t) := by
    intro c hc
    rwa [Function.update_self]
  cases hmove with
  | create hpc =>
      cases role with
      | runner => rw [show (s.threads t).runner = .create from hpc] at hrunner; cases hrunner
      | agent => exact hset _ (h.create hpc)
  | func hpc =>
      cases role with
      | runner => exact hset _ (h.func hpc)
      | agent => rw [show (s.threads t).agent = .func from hpc] at hagent; cases hagent
  | lock hpc hfree => exact hset _ (h.lock_step hpc hfree)
  | second hpc hflag => exact hset _ (h.test_second hpc hflag)
  | first hpc hflag => exact hset _ (h.test_first hpc hflag)
  | mark hpc => exact hset _ (h.mark_step hpc)
  | unlock hpc => exact hset _ (h.unlock_step hpc)
  | exit hpc =>
      cases role with
      | runner => exact hset _ (h.exit_step hpc)
      | agent => rw [show (s.threads t).agent = .exit from hpc] at hagent; cases hagent
  | wait hpc hflag =>
      cases role with
      | runner => rw [show (s.threads t).runner = .wait from hpc] at hrunner; cases hrunner
      | agent => exact hset _ (h.wait_step hpc hflag)
  | read hpc =>
      cases role with
      | runner => rw [show (s.threads t).runner = .read from hpc] at hrunner; cases hrunner
      | agent => exact hset _ (h.read_step hpc)
  | lockList hpc hfree => exact hset _ (h.destroy_step hpc .take)
  | take hpc => exact hset _ (h.destroy_step hpc (.walk s.stackList))
  | free u iter hpc hexited => exact hset _ (h.destroy_step hpc (.walk iter))
  | stop iter hpc => exact hset _ (h.destroy_step hpc (.push iter))
  | push iter hpc => exact hset _ (h.destroy_step hpc .unlock)
  | unlockList hpc => exact hset _ (h.destroy_end hpc)

/-- The other threads are as they were. -/
theorem Moves.frame (hmove : Moves joins code s t role s') {u : T} (hu : u ≠ t) :
    s'.threads u = s.threads u := by
  cases hmove <;> exact Function.update_of_ne hu ..

end Moves

/-! ## The list -/

/-- Holds `last_stack_lock`. -/
def Pc.last : Pc T → Bool
  | .destroy .take | .destroy (.walk _) | .destroy (.push _) | .destroy .unlock => true
  | _ => false

/-- The rest of the list, of a caller in the loop or behind it. -/
def Pc.iters : Pc T → List (List T)
  | .destroy (.walk iter) | .destroy (.push iter) => [iter]
  | _ => []

/-- In `cthread_destroy`, and the stack is not on the list yet. -/
def Pc.pushing : Pc T → Bool
  | .destroy .unlock => false
  | .destroy _ => true
  | _ => false

def Cthread.lasts (c : Cthread T) : Nat := c.runner.last.toNat + c.agent.last.toNat

def Cthread.iters (c : Cthread T) : List (List T) := c.runner.iters ++ c.agent.iters

/-- The stack was put on the list. -/
def Cthread.Listed (c : Cthread T) : Prop :=
  c.destroyed ≠ 0 ∧ c.runner.pushing = false ∧ c.agent.pushing = false

variable [Fintype T]

/-- What holds of the stacks, where `live` are those that can still be freed: the list, or what a caller
    in the loop has not freed of it. -/
structure Stacks (s : State T) (live : List T) : Prop where
  lock : ∑ t, (s.threads t).lasts = s.lastStackLock.toNat
  iters : ∀ t, ∀ iter ∈ (s.threads t).iters, live = iter
  list : (∀ t, (s.threads t).iters = []) → live = s.stackList
  nodup : (live ++ s.freed).Nodup
  listed : ∀ t, t ∈ live ++ s.freed ↔ (s.threads t).Listed
  exited : ∀ t ∈ s.freed, (s.threads t).exited = true
  kept : ∀ t ∈ live ++ s.freed, s.stackList ≠ []

section Threads

variable {c : Cthread T} {role : Role} {p : Pc T}

omit [Fintype T]

theorem goto_self : (c.goto role p).pc role = p := by
  cases role <;> rfl

theorem goto_other : (c.goto role p).pc role.other = c.pc role.other := by
  cases role <;> rfl

theorem lasts_eq (role : Role) : c.lasts = (c.pc role).last.toNat + (c.pc role.other).last.toNat := by
  cases role
  · rfl
  · exact Nat.add_comm _ _

theorem listed_iff (role : Role) : c.Listed ↔
    c.destroyed ≠ 0 ∧ (c.pc role).pushing = false ∧ (c.pc role.other).pushing = false := by
  cases role
  · rfl
  · exact and_congr_right fun _ => and_comm

/-- The list is only accessed by who holds its lock. -/
theorem Pc.iters_eq_nil (h : p.last = false) : p.iters = [] := by
  unfold Pc.last at h
  unfold Pc.iters
  split at h <;> simp_all

theorem Pc.not_pushing (h : p.destroys = false) : p.pushing = false := by
  unfold Pc.destroys at h
  unfold Pc.pushing
  split at h <;> simp_all

theorem Pc.not_last (h : p.destroys = false) : p.last = false := by
  unfold Pc.destroys at h
  unfold Pc.last
  split at h <;> simp_all

/-- A caller of `cthread_destroy` is the only one for its thread. -/
theorem alone (hone : (c.pc role.other).destroys = false) :
    c.lasts = (c.pc role).last.toNat ∧ c.iters = (c.pc role).iters ∧
      (c.Listed ↔ c.destroyed ≠ 0 ∧ (c.pc role).pushing = false) := by
  have hlast := Pc.not_last hone
  have hnil := Pc.iters_eq_nil hlast
  have hpushing := Pc.not_pushing hone
  refine ⟨?_, ?_, ?_⟩
  · rw [lasts_eq role, hlast]
    rfl
  · cases role with
    | runner => rw [Cthread.iters, show c.agent.iters = [] from hnil, List.append_nil]; rfl
    | agent => rw [Cthread.iters, show c.runner.iters = [] from hnil, List.nil_append]; rfl
  · rw [listed_iff role, hpushing]
    exact and_congr_right fun _ => and_iff_left rfl

/-- A thread of which `p` is the only point at the list. -/
structure Caller (c : Cthread T) (p : Pc T) : Prop where
  lasts : c.lasts = p.last.toNat
  iters : c.iters = p.iters
  listed : c.Listed ↔ p.pushing = false

/-- In `cthread_destroy` a thread or its agent is the only one for the thread, wherever it goes. -/
theorem Local.caller {joins : Bool} {code : Int} (h : Local joins code c)
    (hdestroys : (c.pc role).destroys = true) (p : Pc T) :
    Caller c (c.pc role) ∧ Caller (c.goto role p) p := by
  have hone := h.one_destroys hdestroys
  have hcounted := h.destroyed_ne_zero hdestroys
  have hcounted' : (c.goto role p).destroyed ≠ 0 := by cases role <;> exact hcounted
  obtain ⟨hlasts, hiters, hlisted⟩ := alone hone
  obtain ⟨hlasts', hiters', hlisted'⟩ := alone (c := c.goto role p) (goto_other ▸ hone)
  rw [goto_self] at hlasts' hiters' hlisted'
  exact ⟨⟨hlasts, hiters, hlisted.trans (and_iff_right hcounted)⟩,
    ⟨hlasts', hiters', hlisted'.trans (and_iff_right hcounted')⟩⟩

end Threads

section Stacks

variable [DecidableEq T] {joins : T → Bool} {code : T → Int} {s s' : State T} {t : T} {role : Role}
  {live : List T}

/-- Nobody else is at the list while `t` holds its lock. -/
theorem Stacks.others (h : Stacks s live) (ht : (s.threads t).lasts ≠ 0) {u : T} (hu : u ≠ t) :
    (s.threads u).iters = [] := by
  have hsum : ∑ u, (s.threads u).lasts ≤ 1 := h.lock ▸ Bool.toNat_le _
  have hzero : (s.threads u).lasts = 0 := eq_zero_of_sum_le_one hsum ht hu
  have hrunner : (s.threads u).runner.last = false := by
    rw [Cthread.lasts] at hzero
    exact Bool.toNat_eq_zero.1 (by omega)
  have hagent : (s.threads u).agent.last = false := by
    rw [Cthread.lasts] at hzero
    exact Bool.toNat_eq_zero.1 (by omega)
  rw [Cthread.iters, Pc.iters_eq_nil hrunner, Pc.iters_eq_nil hagent, List.append_nil]

/-- A thread becomes `c`, and the list changes with it. -/
theorem Stacks.update (h : Stacks s live) {c : Cthread T} {list freed live' : List T} {lock : Bool}
    (hlock : c.lasts + s.lastStackLock.toNat = (s.threads t).lasts + lock.toNat)
    (hothers : (∀ u, u ≠ t → (s.threads u).iters = []) ∨ live' = live)
    (hiters : ∀ iter ∈ c.iters, live' = iter)
    (hlist : c.iters = [] → (∀ u, u ≠ t → (s.threads u).iters = []) → live' = list)
    (hnodup : (live' ++ freed).Nodup)
    (hself : t ∈ live' ++ freed ↔ c.Listed)
    (hmem : ∀ u, u ≠ t → (u ∈ live' ++ freed ↔ u ∈ live ++ s.freed))
    (hexited : (s.threads t).exited = true → c.exited = true)
    (hfreed : ∀ u ∈ freed, u ∈ s.freed ∨ (s.threads u).exited = true)
    (hkept : ∀ u ∈ live' ++ freed, list ≠ []) :
    Stacks { s.set t c with stackList := list, lastStackLock := lock, freed := freed } live' where
  lock := by
    have hsum := sum_update s.threads Cthread.lasts t c
    have hold := h.lock
    show ∑ u, (Function.update s.threads t c u).lasts = lock.toNat
    omega
  iters := by
    intro u iter hiter
    replace hiter : iter ∈ (Function.update s.threads t c u).iters := hiter
    by_cases hu : u = t
    · subst hu
      rw [Function.update_self] at hiter
      exact hiters iter hiter
    · rw [Function.update_of_ne hu] at hiter
      rcases hothers with hnone | rfl
      · rw [hnone u hu] at hiter
        cases hiter
      · exact h.iters u iter hiter
  list := by
    intro hall
    refine hlist ?_ fun u hu => ?_
    · have ht : (Function.update s.threads t c t).iters = [] := hall t
      rwa [Function.update_self] at ht
    · have hu' : (Function.update s.threads t c u).iters = [] := hall u
      rwa [Function.update_of_ne hu] at hu'
  nodup := hnodup
  listed := by
    intro u
    show u ∈ live' ++ freed ↔ (Function.update s.threads t c u).Listed
    by_cases hu : u = t
    · subst hu
      rwa [Function.update_self]
    · rw [Function.update_of_ne hu, hmem u hu]
      exact h.listed u
  exited := by
    intro u hu
    show (Function.update s.threads t c u).exited = true
    have hold : (s.threads u).exited = true := (hfreed u hu).elim (h.exited u) id
    by_cases hut : u = t
    · subst hut
      rw [Function.update_self]
      exact hexited hold
    · rwa [Function.update_of_ne hut]
  kept := hkept

/-- A step of one thread that has nothing to do with the list. -/
theorem Stacks.set (h : Stacks s live) {c : Cthread T} (hlasts : c.lasts = (s.threads t).lasts)
    (hiters : c.iters = (s.threads t).iters) (hlisted : (s.threads t).Listed ↔ c.Listed)
    (hexited : (s.threads t).exited = true → c.exited = true) : Stacks (s.set t c) live := by
  refine h.update (by rw [hlasts]) (Or.inr rfl) (fun iter hiter => h.iters t iter (hiters ▸ hiter))
    (fun hnil hothers => h.list fun u => ?_) h.nodup ((h.listed t).trans hlisted) (fun _ _ => Iff.rfl)
    hexited (fun _ hu => Or.inl hu) h.kept
  by_cases hu : u = t
  · rw [hu, ← hiters, hnil]
  · exact hothers u hu

omit [Fintype T] [DecidableEq T] in
theorem goto_destroyed (c : Cthread T) (p : Pc T) :
    (c.goto role p).destroyed = c.destroyed ∧ (c.goto role p).exited = c.exited := by
  cases role <;> exact ⟨rfl, rfl⟩

/-- The thread or its agent goes on outside the lock of the list. -/
theorem Stacks.quiet (h : Stacks s live) {c : Cthread T} {p p' : Pc T}
    (hpc : (s.threads t).pc role = p) (hrunner : c.runner = ((s.threads t).goto role p').runner)
    (hagent : c.agent = ((s.threads t).goto role p').agent) (hlast : p.last = false)
    (hlast' : p'.last = false) (hlisted : (s.threads t).Listed ↔ c.Listed)
    (hexited : (s.threads t).exited = true → c.exited = true) : Stacks (s.set t c) live := by
  have hnil := Pc.iters_eq_nil hlast
  have hnil' := Pc.iters_eq_nil hlast'
  subst hpc
  refine h.set ?_ ?_ hlisted hexited
  · cases role <;> simp_all [Cthread.lasts, Cthread.goto, Cthread.pc]
  · cases role <;> simp_all [Cthread.iters, Cthread.goto, Cthread.pc]

omit [Fintype T] [DecidableEq T] in
/-- Nothing is put on the list. -/
theorem listed_goto {c c' : Cthread T} {p p' : Pc T} (hpc : c.pc role = p)
    (hrunner : c'.runner = (c.goto role p').runner) (hagent : c'.agent = (c.goto role p').agent)
    (hdestroyed : c'.destroyed = c.destroyed) (hpushing : p'.pushing = p.pushing) :
    c.Listed ↔ c'.Listed := by
  subst hpc
  cases role <;> simp_all [Cthread.Listed, Cthread.goto, Cthread.pc]

omit [Fintype T] [DecidableEq T] in
/-- A thread that is about to be destroyed is not on the list, before and after. -/
theorem listed_destroy {c c' : Cthread T} (role : Role) (hzero : c.destroyed = 0)
    (hpushing : (c'.pc role).pushing = true) : c.Listed ↔ c'.Listed := by
  refine iff_of_false (fun h => h.1 hzero) fun h => ?_
  rw [((listed_iff role).1 h).2.1] at hpushing
  cases hpushing

omit [DecidableEq T] in
theorem Stacks.locked (h : Stacks s live) (ht : (s.threads t).lasts ≠ 0) : s.lastStackLock = true := by
  have hle := Finset.single_le_sum (f := fun u => (s.threads u).lasts) (fun _ _ => Nat.zero_le _)
    (Finset.mem_univ t)
  rw [h.lock] at hle
  cases hlock : s.lastStackLock with
  | true => rfl
  | false =>
      rw [hlock] at hle
      exact absurd (Nat.le_zero.1 hle) ht

/-! ## The moves of `cthread_destroy` -/

section Moves

variable {c : Cthread T}

/-- The thread that holds the lock of the list is the only one at it. -/
theorem Stacks.alone (h : Stacks s live) {p : Pc T} (hc : Caller (s.threads t) p)
    (hlast : p.last = true) : s.lastStackLock = true ∧ ∀ u, u ≠ t → (s.threads u).iters = [] := by
  have hlasts : (s.threads t).lasts ≠ 0 := by
    rw [hc.lasts, hlast]
    exact Nat.one_ne_zero
  exact ⟨h.locked hlasts, fun u hu => h.others hlasts hu⟩

omit [DecidableEq T] in
/-- While nobody is in the loop the stacks are those on the list. -/
theorem Stacks.on_list (h : Stacks s live) (ht : (s.threads t).iters = [])
    (hothers : ∀ u, u ≠ t → (s.threads u).iters = []) : live = s.stackList := by
  refine h.list fun u => ?_
  by_cases hu : u = t
  · rw [hu]
    exact ht
  · exact hothers u hu

theorem Stacks.lockList (h : Stacks s live) (hc : Caller (s.threads t) (.destroy .lock))
    (hc' : Caller c (.destroy .take)) (hexited : (s.threads t).exited = true → c.exited = true)
    (hfree : s.lastStackLock = false) : Stacks { s.set t c with lastStackLock := true } live := by
  refine h.update ?_ (Or.inr rfl) ?_ (fun _ => h.on_list hc.iters) h.nodup ?_ (fun _ _ => Iff.rfl)
    hexited (fun _ hu => Or.inl hu) h.kept
  · rw [hc.lasts, hc'.lasts, hfree]
    rfl
  · intro iter hiter
    rw [hc'.iters] at hiter
    cases hiter
  · exact (h.listed t).trans (hc.listed.trans hc'.listed.symm)

theorem Stacks.take (h : Stacks s live) (hc : Caller (s.threads t) (.destroy .take))
    (hc' : Caller c (.destroy (.walk s.stackList)))
    (hexited : (s.threads t).exited = true → c.exited = true) : Stacks (s.set t c) live := by
  have hlist : live = s.stackList := h.on_list hc.iters (h.alone hc rfl).2
  refine h.update ?_ (Or.inr rfl) ?_ (fun _ _ => hlist) h.nodup ?_ (fun _ _ => Iff.rfl) hexited
    (fun _ hu => Or.inl hu) h.kept
  · rw [hc.lasts, hc'.lasts]
    rfl
  · intro iter hiter
    rw [hc'.iters] at hiter
    exact hlist.trans (List.mem_singleton.1 hiter).symm
  · exact (h.listed t).trans (hc.listed.trans hc'.listed.symm)

/-- The stack at the head goes from the list to those that were freed. -/
theorem Stacks.free (h : Stacks s live) {u : T} {iter : List T}
    (hc : Caller (s.threads t) (.destroy (.walk (u :: iter))))
    (hc' : Caller c (.destroy (.walk iter)))
    (hexited : (s.threads t).exited = true → c.exited = true)
    (hgone : (s.threads u).exited = true) :
    Stacks { s.set t c with freed := s.freed ++ [u] } iter := by
  have hlive : live = u :: iter := h.iters t _ (hc.iters ▸ List.mem_singleton_self _)
  have hperm : (iter ++ (s.freed ++ [u])).Perm (live ++ s.freed) := by
    rw [hlive, ← List.append_assoc]
    exact List.perm_append_singleton _ _
  refine h.update ?_ (Or.inl (h.alone hc rfl).2) ?_ ?_ (hperm.nodup_iff.2 h.nodup) ?_
    (fun _ _ => hperm.mem_iff) hexited ?_ fun v hv => h.kept v (hperm.mem_iff.1 hv)
  · rw [hc.lasts, hc'.lasts]
    rfl
  · intro iter' hiter
    rw [hc'.iters] at hiter
    exact (List.mem_singleton.1 hiter).symm
  · intro hnil
    rw [hc'.iters] at hnil
    cases hnil
  · exact hperm.mem_iff.trans ((h.listed t).trans (hc.listed.trans hc'.listed.symm))
  · intro v hv
    rcases List.mem_append.1 hv with hold | hnew
    · exact Or.inl hold
    · exact Or.inr (List.mem_singleton.1 hnew ▸ hgone)

theorem Stacks.stop (h : Stacks s live) {iter : List T}
    (hc : Caller (s.threads t) (.destroy (.walk iter))) (hc' : Caller c (.destroy (.push iter)))
    (hexited : (s.threads t).exited = true → c.exited = true) : Stacks (s.set t c) live :=
  h.set (hc'.lasts.trans hc.lasts.symm) (hc'.iters.trans hc.iters.symm)
    (hc.listed.trans hc'.listed.symm) hexited

/-- The stack of the thread itself comes on the list. -/
theorem Stacks.push (h : Stacks s live) {iter : List T}
    (hc : Caller (s.threads t) (.destroy (.push iter))) (hc' : Caller c (.destroy .unlock))
    (hexited : (s.threads t).exited = true → c.exited = true) :
    Stacks { s.set t c with stackList := t :: iter } (t :: iter) := by
  have hlive : live = iter := h.iters t _ (hc.iters ▸ List.mem_singleton_self _)
  have hnew : t ∉ live ++ s.freed := fun hmem => by
    cases hc.listed.1 ((h.listed t).1 hmem)
  subst hlive
  refine h.update ?_ (Or.inl (h.alone hc rfl).2) ?_ (fun _ _ => rfl) ?_ ?_ ?_ hexited
    (fun _ hu => Or.inl hu) fun _ _ => List.cons_ne_nil _ _
  · rw [hc.lasts, hc'.lasts]
    rfl
  · intro iter hiter
    rw [hc'.iters] at hiter
    cases hiter
  · exact List.nodup_cons.2 ⟨hnew, h.nodup⟩
  · exact iff_of_true (List.mem_cons_self ..) (hc'.listed.2 rfl)
  · intro u hu
    rw [List.cons_append, List.mem_cons]
    exact or_iff_right hu

theorem Stacks.unlockList (h : Stacks s live) {p : Pc T}
    (hc : Caller (s.threads t) (.destroy .unlock)) (hc' : Caller c p) (hp : p.destroys = false)
    (hexited : (s.threads t).exited = true → c.exited = true) :
    Stacks { s.set t c with lastStackLock := false } live := by
  have hlast := Pc.not_last hp
  refine h.update ?_ (Or.inr rfl) ?_ (fun _ => h.on_list hc.iters) h.nodup ?_ (fun _ _ => Iff.rfl)
    hexited (fun _ hu => Or.inl hu) h.kept
  · rw [hc.lasts, hc'.lasts, hlast, (h.alone hc rfl).1]
    rfl
  · intro iter hiter
    rw [hc'.iters, Pc.iters_eq_nil hlast] at hiter
    cases hiter
  · exact (h.listed t).trans (hc.listed.trans (iff_of_true rfl (hc'.listed.2 (Pc.not_pushing hp))))

/-- `cthread_create`, with whatever the agent does next. -/
theorem Stacks.create (h : Stacks s live) {joins : Bool} (hrunner : (s.threads t).runner = .unborn)
    (hagent : (s.threads t).agent = .create) :
    Stacks (s.set t ({ s.threads t with
      runner := Pc.func, agent := if joins then Pc.wait else Pc.lock } : Cthread T)) live := by
  refine h.set ?_ ?_ ?_ id
  · cases joins <;> simp [Cthread.lasts, hrunner, hagent, Pc.last]
  · cases joins <;> simp [Cthread.iters, hrunner, hagent, Pc.iters]
  · cases joins <;> simp [Cthread.Listed, hrunner, hagent, Pc.pushing]

theorem Stacks.mark (h : Stacks s live) (hpc : (s.threads t).pc role = .mark) :
    Stacks (s.set t (((s.threads t).setFlag role).goto role .unlock)) live := by
  have hrunner : (((s.threads t).setFlag role).goto role .unlock).runner
      = ((s.threads t).goto role .unlock).runner := by cases role <;> rfl
  have hagent : (((s.threads t).setFlag role).goto role .unlock).agent
      = ((s.threads t).goto role .unlock).agent := by cases role <;> rfl
  refine h.quiet hpc hrunner hagent rfl rfl (listed_goto hpc hrunner hagent ?_ rfl) ?_
  · cases role <;> rfl
  · cases role <;> exact id

end Moves

/-- **A step keeps what holds of the list.** -/
theorem Moves.stacks (hlocal : Local (joins t) (code t) (s.threads t)) (h : Stacks s live)
    (hmove : Moves joins code s t role s') : ∃ live', Stacks s' live' := by
  have hdestroyed : ∀ p, ((s.threads t).goto role p).destroyed = (s.threads t).destroyed := fun p =>
    (goto_destroyed _ p).1
  have hexited : ∀ p, (s.threads t).exited = true → ((s.threads t).goto role p).exited = true :=
    fun p => (goto_destroyed _ p).2.symm ▸ id
  have hcaller : ∀ d p, (s.threads t).pc role = .destroy d →
      Caller (s.threads t) (.destroy d) ∧ Caller ((s.threads t).goto role p) p := fun d p hpc =>
    hpc ▸ hlocal.caller (hpc ▸ rfl) p
  cases hmove with
  | create hpc =>
      have hagent : (s.threads t).agent = .create := by
        cases role with
        | runner =>
            have hrunner := hlocal.runner
            rw [show (s.threads t).runner = .create from hpc] at hrunner
            cases hrunner
        | agent => exact hpc
      exact ⟨live, h.create (hlocal.born.2 hagent) hagent⟩
  | func hpc =>
      exact ⟨live, h.quiet hpc rfl rfl rfl rfl (listed_goto hpc rfl rfl (hdestroyed _) rfl) (hexited _)⟩
  | lock hpc hfree =>
      exact ⟨live, h.quiet hpc rfl rfl rfl rfl (listed_goto hpc rfl rfl (hdestroyed _) rfl) (hexited _)⟩
  | second hpc hflag =>
      have hzero := hlocal.not_destroyed (Or.inl hpc)
      refine ⟨live, h.quiet hpc rfl rfl rfl rfl (listed_destroy role hzero ?_) (hexited _)⟩
      cases role <;> rfl
  | first hpc hflag =>
      exact ⟨live, h.quiet hpc rfl rfl rfl rfl (listed_goto hpc rfl rfl (hdestroyed _) rfl) (hexited _)⟩
  | mark hpc => exact ⟨live, h.mark hpc⟩
  | unlock hpc =>
      refine ⟨live, h.quiet hpc rfl rfl rfl ?_ (listed_goto hpc rfl rfl (hdestroyed _) ?_) (hexited _)⟩
      · cases role <;> rfl
      · cases role <;> rfl
  | exit hpc =>
      exact ⟨live, h.quiet hpc rfl rfl rfl rfl (listed_goto hpc rfl rfl (hdestroyed _) rfl) fun _ => rfl⟩
  | wait hpc hflag =>
      have hzero := hlocal.not_destroyed (Or.inr hpc)
      refine ⟨live, h.quiet hpc rfl rfl rfl rfl (listed_destroy role hzero ?_) (hexited _)⟩
      cases role <;> rfl
  | read hpc =>
      exact ⟨live, h.quiet hpc rfl rfl rfl rfl (listed_goto hpc rfl rfl (hdestroyed _) rfl) (hexited _)⟩
  | lockList hpc hfree =>
      obtain ⟨hc, hc'⟩ := hcaller _ (.destroy .take) hpc
      exact ⟨live, h.lockList hc hc' (hexited _) hfree⟩
  | take hpc =>
      obtain ⟨hc, hc'⟩ := hcaller _ (.destroy (.walk s.stackList)) hpc
      exact ⟨live, h.take hc hc' (hexited _)⟩
  | free u iter hpc hgone =>
      obtain ⟨hc, hc'⟩ := hcaller _ (.destroy (.walk iter)) hpc
      exact ⟨iter, h.free hc hc' (hexited _) hgone⟩
  | stop iter hpc =>
      obtain ⟨hc, hc'⟩ := hcaller _ (.destroy (.push iter)) hpc
      exact ⟨live, h.stop hc hc' (hexited _)⟩
  | push iter hpc =>
      obtain ⟨hc, hc'⟩ := hcaller _ (.destroy .unlock) hpc
      exact ⟨t :: iter, h.push hc hc' (hexited _)⟩
  | unlockList hpc =>
      obtain ⟨hc, hc'⟩ := hcaller _ (afterDestroy (joins t) role) hpc
      have hafter : (afterDestroy (T := T) (joins t) role).destroys = false := by
        cases role <;> cases joins t <;> rfl
      exact ⟨live, h.unlockList hc hc' hafter (hexited _)⟩

end Stacks

end SysProg.Detach
