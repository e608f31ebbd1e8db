import SysProg.Threads.StackList

set_option autoImplicit false

/-! # Every run of threads that free their stacks (`lecture_examples/6_threads/12_cthread_detach.c`)

The invariants of one thread and of the list over whole runs, and that no run gets stuck. As in the
model, `malloc`, `free` and `printf` are taken to be safe in threads that `clone` started, and to return. -/

namespace SysProg.Detach

open Interleaving
open scoped BigOperators

variable {T : Type}

/-! ## What is left to do -/

/-- A bound of the steps up to the end of `cthread_runner`, or of the agent, without those in the loop of
    `cthread_destroy`. The agent that creates the thread has those of the thread before it. -/
def Pc.left : Pc T → Nat
  | .unborn | .gone | .joined => 0
  | .create => 26
  | .func => 13
  | .lock | .wait => 12
  | .test => 11
  | .destroy .lock => 10
  | .destroy .take => 9
  | .destroy (.walk _) => 8
  | .destroy (.push _) => 7
  | .destroy .unlock => 6
  | .mark => 5
  | .unlock => 4
  | .exit => 3
  | .read => 2

def Cthread.left (c : Cthread T) : Nat := c.runner.left + c.agent.left

/-- A step goes on, or frees one of the stacks. -/
def rank [Fintype T] (s : State T) : Nat :=
  ∑ t, (s.threads t).left + (Fintype.card T - s.freed.length)

section Threads

variable {c : Cthread T} {role : Role} {p : Pc T}

theorem left_eq (role : Role) : c.left = (c.pc role).left + (c.pc role.other).left := by
  cases role
  · rfl
  · exact Nat.add_comm _ _

theorem left_goto : (c.goto role p).left = p.left + (c.pc role.other).left := by
  rw [left_eq role, goto_self, goto_other]

/-- Not behind the end, and not in a loop that waits. -/
def Pc.ready : Pc T → Bool
  | .unborn | .gone | .joined | .lock | .wait => false
  | _ => true

theorem Pc.ready_of_last (h : p.last = true) : p.ready = true ∧ p ≠ .destroy .lock := by
  unfold Pc.last at h
  split at h <;> simp_all [Pc.ready]

theorem Pc.not_inSection (h : p.ready = false) : p.inSection = false := by
  cases p <;> simp_all [Pc.ready, Pc.inSection]

end Threads

section Runs

variable [Fintype T] [DecidableEq T] {joins : T → Bool} {code : T → Int} {s s' : State T} {t : T}
  {role : Role} {live : List T}

/-- The invariant of the runs. -/
structure Inv (joins : T → Bool) (code : T → Int) (s : State T) : Prop where
  threads : ∀ t, Local (joins t) (code t) (s.threads t)
  list : ∃ live, Stacks s live

theorem Moves.inv (h : Inv joins code s) (hmove : Moves joins code s t role s') : Inv joins code s' where
  threads := by
    intro u
    by_cases hu : u = t
    · subst hu
      exact hmove.local (h.threads u)
    · rw [hmove.frame hu]
      exact h.threads u
  list := by
    obtain ⟨live, hstacks⟩ := h.list
    exact hmove.stacks (h.threads t) hstacks

omit [DecidableEq T] in
theorem inv_init : Inv joins code (init : State T) where
  threads := fun _ => local_init
  list := ⟨[], {
    lock := Finset.sum_eq_zero fun _ _ => rfl
    iters := by rintro t iter ⟨⟩
    list := fun _ => rfl
    nodup := List.nodup_nil
    listed := fun _ => iff_of_false List.not_mem_nil fun h => h.1 rfl
    exited := by rintro t ⟨⟩
    kept := by rintro t ⟨⟩ }⟩

theorem reaches_inv (h : Reaches (step joins code) (fun _ _ => True) init s) : Inv joins code s := by
  refine h.invariant (Inv joins code) ?_ inv_init
  rintro s ⟨t, role⟩ s' hs - hstep
  rcases step_cases hstep with rfl | hmove
  · exact hs
  · exact hmove.inv hs

/-! ## Every schedule comes to its end -/

/-- The thread or its agent goes on. -/
theorem rank_goto {c : Cthread T} {list : List T} {lock : Bool}
    (hleft : c.left < (s.threads t).left) :
    rank { s.set t c with stackList := list, lastStackLock := lock } < rank s := by
  have hsum := sum_update s.threads Cthread.left t c
  show ∑ u, (Function.update s.threads t c u).left + (Fintype.card T - s.freed.length) < rank s
  unfold rank
  omega

omit [DecidableEq T] in
theorem Stacks.freed_le (h : Stacks s live) : s.freed.length ≤ Fintype.card T :=
  (List.nodup_append.1 h.nodup).2.1.length_le_card

/-- **A step uses up some of what is left.** -/
theorem Moves.rank_lt (h : Inv joins code s) (hmove : Moves joins code s t role s') :
    rank s' < rank s := by
  have hinv := hmove.inv h
  have hgoto : ∀ {p p' : Pc T}, (s.threads t).pc role = p → p'.left < p.left →
      ((s.threads t).goto role p').left < (s.threads t).left := by
    rintro p p' rfl hlt
    rw [left_goto, left_eq role]
    omega
  cases hmove with
  | create hpc =>
      have hagent : (s.threads t).agent = .create := by
        cases role with
        | runner =>
            have hrunner := (h.threads t).runner
            rw [show (s.threads t).runner = .create from hpc] at hrunner
            cases hrunner
        | agent => exact hpc
      refine rank_goto ?_
      simp only [Cthread.left, (h.threads t).born.2 hagent, hagent]
      cases joins t <;> simp [Pc.left]
  | func hpc => exact rank_goto (hgoto hpc (by simp [Pc.left]) : _)
  | lock hpc hfree => exact rank_goto (hgoto hpc (by simp [Pc.left]) : _)
  | second hpc hflag => exact rank_goto (hgoto hpc (by simp [Pc.left]) : _)
  | first hpc hflag => exact rank_goto (hgoto hpc (by simp [Pc.left]))
  | mark hpc =>
      have hset : (((s.threads t).setFlag role).goto role .unlock).left
          = ((s.threads t).goto role .unlock).left := by cases role <;> rfl
      exact rank_goto (hset.trans_lt (hgoto hpc (by simp [Pc.left])))
  | unlock hpc =>
      exact rank_goto (hgoto hpc (by cases role <;> simp [Pc.left, afterUnlock]) : _)
  | exit hpc => exact rank_goto (hgoto hpc (by simp [Pc.left]) : _)
  | wait hpc hflag => exact rank_goto (hgoto hpc (by simp [Pc.left]) : _)
  | read hpc => exact rank_goto (hgoto hpc (by simp [Pc.left]) : _)
  | lockList hpc hfree => exact rank_goto (hgoto hpc (by simp [Pc.left]))
  | take hpc => exact rank_goto (hgoto hpc (by simp [Pc.left]))
  | free u iter hpc hexited =>
      obtain ⟨live, hlist⟩ := hinv.list
      have hle := hlist.freed_le
      have hsum := sum_update s.threads Cthread.left t
        ((s.threads t).goto role (.destroy (.walk iter)))
      have hsame : ((s.threads t).goto role (.destroy (.walk iter))).left = (s.threads t).left := by
        rw [left_goto, left_eq role, hpc]
        rfl
      rw [List.length_append, List.length_singleton] at hle
      show ∑ v, (Function.update s.threads t _ v).left
        + (Fintype.card T - (s.freed ++ [u]).length) < rank s
      rw [List.length_append, List.length_singleton]
      unfold rank
      omega
  | stop iter hpc => exact rank_goto (hgoto hpc (by simp [Pc.left]))
  | push iter hpc => exact rank_goto (hgoto hpc (by simp [Pc.left]))
  | unlockList hpc =>
      exact rank_goto (hgoto hpc (by cases role <;> cases joins t <;> simp [Pc.left, afterDestroy]))

/-- Who is ready goes on: no stack that the loop of `cthread_destroy` looks at was freed, nor the one
    that goes on the list. -/
theorem exists_moves (h : Inv joins code s) (hready : ((s.threads t).pc role).ready = true)
    (hlock : (s.threads t).pc role = .destroy .lock → s.lastStackLock = false) :
    ∃ s', step joins code (t, role) s = some s' ∧ Moves joins code s t role s' := by
  obtain ⟨live, hlist⟩ := h.list
  cases hpc : (s.threads t).pc role with
  | unborn | gone | joined | lock | wait =>
      rw [hpc] at hready
      cases hready
  | create => exact ⟨_, by simp only [step, hpc], .create hpc⟩
  | func => exact ⟨_, by simp only [step, hpc], .func hpc⟩
  | test =>
      cases hflag : (s.threads t).otherFlag role with
      | true => exact ⟨_, by simp only [step, hpc, hflag, if_true], .second hpc hflag⟩
      | false =>
          exact ⟨_, by simp only [step, hpc, hflag, Bool.false_eq_true, if_false], .first hpc hflag⟩
  | mark => exact ⟨_, by simp only [step, hpc], .mark hpc⟩
  | unlock => exact ⟨_, by simp only [step, hpc], .unlock hpc⟩
  | exit => exact ⟨_, by simp only [step, hpc], .exit hpc⟩
  | read => exact ⟨_, by simp only [step, hpc], .read hpc⟩
  | destroy d =>
      have hdestroys : ((s.threads t).pc role).destroys = true := by
        rw [hpc]
        rfl
      obtain ⟨-, hiters, hlisted⟩ := alone ((h.threads t).one_destroys hdestroys)
      rw [hpc] at hiters hlisted
      cases d with
      | lock =>
          have hfree := hlock hpc
          exact ⟨_, by simp only [step, hpc, destroyStep, hfree, Bool.false_eq_true, if_false]; rfl,
            .lockList hpc hfree⟩
      | take => exact ⟨_, by simp only [step, hpc, destroyStep], .take hpc⟩
      | walk iter =>
          have hlive : live = iter := hlist.iters t _ (hiters ▸ List.mem_singleton_self _)
          subst hlive
          cases live with
          | nil => exact ⟨_, by simp only [step, hpc, destroyStep], .stop [] hpc⟩
          | cons u iter =>
              have hfreed : u ∉ s.freed := (List.nodup_cons.1 hlist.nodup).1 ∘ List.mem_append_right _
              cases hgone : (s.threads u).exited with
              | true =>
                  exact ⟨_, by simp only [step, hpc, destroyStep, hfreed, hgone, if_true, if_false]; rfl,
                    .free u iter hpc hgone⟩
              | false =>
                  exact ⟨_, by simp only [step, hpc, destroyStep, hfreed, hgone, Bool.false_eq_true,
                    if_false], .stop (u :: iter) hpc⟩
      | push iter =>
          have hfreed : t ∉ s.freed := fun hmem => by
            cases (hlisted.1 ((hlist.listed t).1 (List.mem_append_right _ hmem))).2
          exact ⟨_, by simp only [step, hpc, destroyStep, hfreed, if_false]; rfl, .push iter hpc⟩
      | unlock => exact ⟨_, by simp only [step, hpc, destroyStep]; rfl, .unlockList hpc⟩

omit [DecidableEq T] in
/-- The one that holds `last_stack_lock`. -/
theorem Stacks.exists_last (h : Stacks s live) (hlock : s.lastStackLock = true) :
    ∃ t role, ((s.threads t).pc role).last = true := by
  have hsum : ∑ t, (s.threads t).lasts ≠ 0 := by
    rw [h.lock, hlock]
    exact Nat.one_ne_zero
  obtain ⟨t, -, ht⟩ := Finset.exists_ne_zero_of_sum_ne_zero hsum
  rw [Cthread.lasts] at ht
  cases hrunner : (s.threads t).runner.last with
  | true => exact ⟨t, .runner, hrunner⟩
  | false =>
      cases hagent : (s.threads t).agent.last with
      | true => exact ⟨t, .agent, hagent⟩
      | false =>
          rw [hrunner, hagent] at ht
          exact absurd rfl ht

/-- A thread goes on by itself before its end, where it need not wait for the list. -/
theorem exists_moves_of_thread (h : Inv joins code s) (hlock : s.lastStackLock = false)
    (hend : ¬ ((s.threads t).runner = .gone ∧
      ((s.threads t).agent = .gone ∨ (s.threads t).agent = .joined))) :
    ∃ role s', step joins code (t, role) s = some s' ∧ Moves joins code s t role s' := by
  cases hready : (s.threads t).runner.ready with
  | true =>
      have hready : ((s.threads t).pc .runner).ready = true := hready
      exact ⟨.runner, exists_moves h hready fun _ => hlock⟩
  | false =>
      cases hready' : (s.threads t).agent.ready with
      | true =>
          have hready' : ((s.threads t).pc .agent).ready = true := hready'
          exact ⟨.agent, exists_moves h hready' fun _ => hlock⟩
      | false =>
          -- nobody is in the section of the thread
          have hthread := h.threads t
          have hfree : (s.threads t).lock = false := by
            have hlock := hthread.lock
            rw [Pc.not_inSection hready, Pc.not_inSection hready', Bool.and_false] at hlock
            exact Bool.toNat_eq_zero.1 hlock.symm
          have hagent : (s.threads t).agent ≠ .create := by
            intro hpc
            rw [hpc] at hready'
            cases hready'
          have hlocks : ∀ role, (s.threads t).pc role = .lock →
              ∃ s', step joins code (t, role) s = some s' ∧ Moves joins code s t role s' :=
            fun role hpc =>
              ⟨_, by simp only [step, hpc, hfree, Bool.false_eq_true, if_false], .lock hpc hfree⟩
          have hrunner := hthread.runner
          have hofAgent := hthread.agent
          cases hpc : (s.threads t).runner with
          | unborn => exact absurd (hthread.born.1 hpc) hagent
          | lock => exact ⟨.runner, hlocks .runner hpc⟩
          | gone =>
              cases hpc' : (s.threads t).agent with
              | lock => exact ⟨.agent, hlocks .agent hpc'⟩
              | wait =>
                  have hflag : (s.threads t).isFinished = true := by rw [hthread.finished, hpc]; rfl
                  have hwait : (s.threads t).pc .agent = .wait := hpc'
                  exact ⟨.agent, _, by simp only [step, hwait, hflag, if_true], .wait hwait hflag⟩
              | gone => exact absurd ⟨hpc, Or.inl hpc'⟩ hend
              | joined => exact absurd ⟨hpc, Or.inr hpc'⟩ hend
              | create => exact absurd hpc' hagent
              | unborn | func | test | destroy | mark | unlock | exit | read =>
                  simp_all [Pc.ready, Pc.ofAgent]
          | func | create | test | destroy | mark | unlock | exit | wait | read | joined =>
              simp_all [Pc.ready, Pc.ofRunner]

theorem exists_moves_of_not_ended (h : Inv joins code s) (hend : ¬ Ended s) :
    ∃ t role s', step joins code (t, role) s = some s' ∧ Moves joins code s t role s' := by
  cases hlock : s.lastStackLock with
  | true =>
      obtain ⟨live, hlist⟩ := h.list
      obtain ⟨t, role, hlast⟩ := hlist.exists_last hlock
      obtain ⟨hready, hne⟩ := Pc.ready_of_last hlast
      exact ⟨t, role, exists_moves h hready fun hpc => absurd hpc hne⟩
  | false =>
      obtain ⟨t, ht⟩ := not_forall.1 hend
      exact ⟨t, exists_moves_of_thread h hlock ht⟩

/-- **Every schedule makes its way to the end.** -/
theorem graded : Graded (step joins code) (fun r s => r = rank s ∧ Inv joins code s) Ended where
  goes := by
    rintro r s ⟨t, role⟩ s' ⟨rfl, hs⟩ hstep
    rcases step_cases hstep with rfl | hmove
    · exact Or.inl rfl
    · exact Or.inr ⟨_, hmove.rank_lt hs, rfl, hmove.inv hs⟩
  live := by
    rintro r s ⟨rfl, hs⟩ hend
    obtain ⟨t, role, s', hstep, hmove⟩ := exists_moves_of_not_ended hs hend
    exact ⟨(t, role), s', hstep, _, hmove.rank_lt hs, rfl, hmove.inv hs⟩

omit [DecidableEq T] in
/-- At the end every stack is on the list, or was freed. -/
theorem Stacks.mem_of_ended (h : Stacks s live) (hinv : Inv joins code s) (hend : Ended s) :
    live = s.stackList ∧ ∀ t, (s.threads t).destroyed = 1 ∧ t ∈ live ++ s.freed := by
  have hquiet : ∀ t, (s.threads t).agent.decided = true ∧ (s.threads t).agent.destroys = false := by
    intro t
    rcases (hend t).2 with hpc | hpc <;> rw [hpc] <;> exact ⟨rfl, rfl⟩
  have hdestroyed : ∀ t, (s.threads t).destroyed = 1 := by
    intro t
    rw [(hinv.threads t).destroyed, (hend t).1, (hquiet t).1]
    simp [Pc.decided]
  refine ⟨h.list fun t => ?_, fun t => ⟨hdestroyed t, (h.listed t).2 ⟨?_, ?_, ?_⟩⟩⟩
  · rw [Cthread.iters, (hend t).1, Pc.iters_eq_nil (Pc.not_last (hquiet t).2)]
    rfl
  · rw [hdestroyed t]
    exact Nat.one_ne_zero
  · rw [(hend t).1]
    rfl
  · exact Pc.not_pushing (hquiet t).2

omit [DecidableEq T] in
theorem rank_init : rank (init : State T) = 27 * Fintype.card T := by
  have hsum : ∑ t : T, ((init : State T).threads t).left = Fintype.card T * 26 :=
    Finset.sum_const_nat fun _ _ => rfl
  rw [rank, hsum]
  show Fintype.card T * 26 + (Fintype.card T - 0) = 27 * Fintype.card T
  omega

end Runs

/-! ## The program -/

/-- The thread 1 is joined, and ends with 1. -/
def joinsOne : Fin 2 → Bool
  | 0 => false
  | 1 => true

def codeOne : Fin 2 → Int
  | 0 => 0
  | 1 => 1

/-- The thread 0 is detached and destroys itself, and the join of the thread 1 frees its stack. -/
def oneFrees : List (Fin 2 × Role) :=
  List.replicate 5 (0, .agent) ++ List.replicate 11 (0, .runner) ++ [(1, .agent)]
    ++ List.replicate 6 (1, .runner) ++ List.replicate 8 (1, .agent)

/-- The stack of the thread 0 is freed, and the one of the thread 1 is on the list. -/
theorem after_oneFrees :
    ∃ s, after (step joinsOne codeOne) oneFrees init = some s ∧ s.freed = [0] ∧ s.stackList = [1] := by
  have hrun : (after (step joinsOne codeOne) oneFrees init).map (fun s => (s.freed, s.stackList))
      = some ([0], [1]) := by decide
  obtain ⟨s, hs, heq⟩ := Option.map_eq_some_iff.1 hrun
  exact ⟨s, hs, congrArg Prod.fst heq, congrArg Prod.snd heq⟩

section Program

variable [Fintype T] [DecidableEq T] {joins : T → Bool} {code : T → Int} {s : State T}

/-- **No stack is freed twice, or while its thread runs on it**: in every interleaving what was freed is
    the stack of a thread that is gone, and `cthread_destroy` never looks at a stack that was freed. -/
theorem freed_safe (h : Reaches (step joins code) (fun _ _ => True) init s) :
    s.freed.Nodup ∧ (∀ t ∈ s.freed, (s.threads t).runner = .gone) ∧
      ∀ t role d, (s.threads t).pc role = .destroy d → (destroyStep t s d).isSome := by
  have hinv := reaches_inv h
  obtain ⟨live, hlist⟩ := hinv.list
  refine ⟨(List.nodup_append.1 hlist.nodup).2.1, fun t ht => ?_, fun t role d hpc => ?_⟩
  · exact (hinv.threads t).exited.1 (hlist.exited t ht)
  · by_cases hheld : d = .lock
    · subst hheld
      rfl
    · have hready : ((s.threads t).pc role).ready = true := by
        rw [hpc]
        rfl
      obtain ⟨s', hstep, -⟩ := exists_moves hinv hready fun hlock => by
        rw [hpc] at hlock
        cases hlock
        exact absurd rfl hheld
      cases hdestroy : destroyStep t s d with
      | some next => rfl
      | none =>
          simp only [step, hpc, hdestroy] at hstep
          cases hstep

theorem freed_safe_oneFrees :
    ∃ s, after (step joinsOne codeOne) oneFrees init = some s ∧ s.freed = [0] ∧
      s.freed.Nodup ∧ (∀ t ∈ s.freed, (s.threads t).runner = .gone) ∧
        ∀ t role d, (s.threads t).pc role = .destroy d → (destroyStep t s d).isSome :=
  have ⟨s, hs, hfreed, _⟩ := after_oneFrees
  ⟨s, hs, hfreed, freed_safe (reaches_of_after oneFrees .refl hs)⟩

/-- **A thread is destroyed once**, by the agent that joins it, or by the one of the two of them that comes
    second; and a join returns what the function of the thread did. -/
theorem destroyed_once (h : Reaches (step joins code) (fun _ _ => True) init s) (t : T) :
    (s.threads t).destroyed ≤ 1 ∧
      ((s.threads t).runner = .gone → ((s.threads t).agent = .gone ∨ (s.threads t).agent = .joined) →
        (s.threads t).destroyed = 1) ∧
      ((s.threads t).agent = .joined → joins t = true ∧ (s.threads t).result = some (code t)) := by
  have hthread := (reaches_inv h).threads t
  refine ⟨?_, fun hrunner hagent => ?_, fun hpc => ⟨?_, hthread.result hpc⟩⟩
  · rw [hthread.destroyed]
    exact Bool.toNat_le _
  · rw [hthread.destroyed, hrunner]
    rcases hagent with hagent | hagent <;> rw [hagent] <;> simp [Pc.decided]
  · have hagent := hthread.agent
    rwa [hpc] at hagent

theorem destroyed_once_oneFrees :
    ∃ s, after (step joinsOne codeOne) oneFrees init = some s ∧ s.freed = [0] ∧
      (s.threads 1).destroyed ≤ 1 ∧
      ((s.threads 1).runner = .gone → ((s.threads 1).agent = .gone ∨ (s.threads 1).agent = .joined) →
        (s.threads 1).destroyed = 1) ∧
      ((s.threads 1).agent = .joined → joinsOne 1 = true ∧ (s.threads 1).result = some (codeOne 1)) :=
  have ⟨s, hs, hfreed, _⟩ := after_oneFrees
  ⟨s, hs, hfreed, destroyed_once (reaches_of_after oneFrees .refl hs) 1⟩

/-- **Every schedule comes to its end**, in which every stack is on the list or was freed, once, and the
    list keeps one of them at least. -/
theorem detach_ends (h : Reaches (step joins code) (fun _ _ => True) init s) :
    (∃ s', Reaches (step joins code) (fun _ _ => True) s s' ∧ Ended s') ∧
      (∀ k s', Works (step joins code) init k s' → k ≤ 27 * Fintype.card T) ∧
      (Ended s → (s.stackList ++ s.freed).Nodup ∧ (∀ t, t ∈ s.stackList ++ s.freed) ∧
        (Nonempty T → s.stackList ≠ [])) := by
  have hinv := reaches_inv h
  refine ⟨graded.ends ⟨rfl, hinv⟩, fun k s' hrun => ?_, fun hend => ?_⟩
  · rw [← rank_init]
    exact graded.works_le ⟨rfl, inv_init⟩ hrun
  · obtain ⟨live, hlist⟩ := hinv.list
    obtain ⟨rfl, hmem⟩ := hlist.mem_of_ended hinv hend
    exact ⟨hlist.nodup, fun t => (hmem t).2, fun ⟨t⟩ => hlist.kept t (hmem t).2⟩

theorem detach_ends_oneFrees :
    ∃ s, after (step joinsOne codeOne) oneFrees init = some s ∧ s.stackList = [1] ∧
      (∃ s', Reaches (step joinsOne codeOne) (fun _ _ => True) s s' ∧ Ended s') ∧
      (∀ k s', Works (step joinsOne codeOne) init k s' → k ≤ 27 * Fintype.card (Fin 2)) ∧
      (Ended s → (s.stackList ++ s.freed).Nodup ∧ (∀ t, t ∈ s.stackList ++ s.freed) ∧
        (Nonempty (Fin 2) → s.stackList ≠ [])) :=
  have ⟨s, hs, _, hlist⟩ := after_oneFrees
  ⟨s, hs, hlist, detach_ends (reaches_of_after oneFrees .refl hs)⟩

end Program

end SysProg.Detach
