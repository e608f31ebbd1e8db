import SysProg.Lib.Interleaving

set_option autoImplicit false

/-! # Threads that free their stacks (`lecture_examples/6_threads/12_cthread_detach.c`)

A thread that was detached destroys itself when it ends, and cannot free the stack it still runs on:
`cthread_destroy` puts the stack on a list, and frees those stacks at the head of the list whose threads
the kernel has seen exit. Each thread is created, and then joined or detached, by an agent: `main` is
the agent of all its threads, one after the other.

The steps are those of the program's own locks, flags and list. `malloc`, `free` and `printf`, which the
threads call too, are taken to be safe in threads that `clone` started without the thread library. -/

namespace SysProg.Detach

open Interleaving
open scoped BigOperators

/-! ## The threads and their agents -/

/-- The next step of `cthread_destroy`. -/
inductive DestroyPc (T : Type) where
  /-- `spin_lock(&last_stack_lock)`. -/
  | lock
  /-- The load of `stack_list`. -/
  | take
  /-- The loop, with the rest of the list. -/
  | walk (iter : List T)
  /-- The store of `stack_list`. -/
  | push (iter : List T)
  /-- `spin_unlock(&last_stack_lock)`. -/
  | unlock

/-- The next step of a thread in `cthread_runner`, or of its agent. -/
inductive Pc (T : Type) where
  /-- Before `clone`. -/
  | unborn
  /-- The function of the thread, up to its return or `cthread_exit`. -/
  | func
  /-- `cthread_create`. -/
  | create
  /-- `spin_lock(&thread->lock)`. -/
  | lock
  /-- The test of `is_detached` in `cthread_runner`, or of `is_finished` in `cthread_detach`. -/
  | test
  | destroy (d : DestroyPc T)
  /-- The store to `is_finished` in `cthread_runner`, or to `is_detached` in `cthread_detach`. -/
  | mark
  /-- `spin_unlock(&thread->lock)`. -/
  | unlock
  /-- The exit of the thread, at which the kernel clears its `tid`. -/
  | exit
  | gone
  /-- The loop of `cthread_join`. -/
  | wait
  /-- The load of `returned_code` in `cthread_join`. -/
  | read
  | joined

inductive Role where
  | runner
  | agent
deriving DecidableEq

/-- A `struct cthread`, with the thread and the agent that use it. -/
structure Cthread (T : Type) where
  lock : Bool
  isFinished : Bool
  isDetached : Bool
  returnedCode : Int
  /-- `stack->tid` is 0 again. -/
  exited : Bool
  runner : Pc T
  agent : Pc T
  /-- What `cthread_join` has returned. -/
  result : Option Int
  /-- How often `cthread_destroy` was called. -/
  destroyed : Nat

/-- The threads, and the list of their stacks. -/
structure State (T : Type) where
  threads : T → Cthread T
  stackList : List T
  lastStackLock : Bool
  /-- The stacks that were freed, in order. -/
  freed : List T

def Role.other : Role → Role
  | .runner => .agent
  | .agent => .runner

variable {T : Type}

def Cthread.pc (c : Cthread T) : Role → Pc T
  | .runner => c.runner
  | .agent => c.agent

def Cthread.goto (c : Cthread T) (role : Role) (p : Pc T) : Cthread T :=
  match role with
  | .runner => { c with runner := p }
  | .agent => { c with agent := p }

/-- The flag that the other one of the two sets. -/
def Cthread.otherFlag (c : Cthread T) : Role → Bool
  | .runner => c.isDetached
  | .agent => c.isFinished

def Cthread.setFlag (c : Cthread T) : Role → Cthread T
  | .runner => { c with isFinished := true }
  | .agent => { c with isDetached := true }

section System

variable [DecidableEq T]

def State.set (s : State T) (t : T) (c : Cthread T) : State T :=
  { s with threads := Function.update s.threads t c }

/-- The next step of `cthread_destroy(t)`, and where it goes on. The access of a stack that was freed is
    undefined. -/
def destroyStep (t : T) (s : State T) : DestroyPc T → Option (Option (DestroyPc T) × State T)
  | .lock =>
    some (if s.lastStackLock then (some .lock, s) else (some .take, { s with lastStackLock := true }))
  | .take => some (some (.walk s.stackList), s)
  | .walk [] => some (some (.push []), s)
  | .walk (u :: iter) =>
    if u ∈ s.freed then none
    else if (s.threads u).exited then some (some (.walk iter), { s with freed := s.freed ++ [u] })
    else some (some (.push (u :: iter)), s)
  | .push iter => if t ∈ s.freed then none else some (some .unlock, { s with stackList := t :: iter })
  | .unlock => some (none, { s with lastStackLock := false })

/-- Where a caller goes on after `cthread_destroy`. -/
def afterDestroy (joins : Bool) : Role → Pc T
  | .runner => .mark
  | .agent => if joins then .read else .mark

/-- Where a caller goes on after `spin_unlock(&thread->lock)`. -/
def afterUnlock : Role → Pc T
  | .runner => .exit
  | .agent => .gone

/-- The next step of the thread `t` or of its agent, that `joins` it or not. The function of `t` ends
    with `code t`. -/
def step (joins : T → Bool) (code : T → Int) : T × Role → State T → Option (State T)
  | (t, role), s =>
    let c := s.threads t
    match c.pc role with
    | .create =>
      some (s.set t { c with runner := .func, agent := if joins t then .wait else .lock })
    | .func => some (s.set t { c.goto role .lock with returnedCode := code t })
    | .lock => some (if c.lock then s else s.set t { c.goto role .test with lock := true })
    | .test =>
      some (s.set t (if c.otherFlag role then
          { c.goto role (.destroy .lock) with destroyed := c.destroyed + 1 }
        else c.goto role .mark))
    | .destroy d =>
      match destroyStep t s d with
      | some (some d', s') => some (s'.set t (c.goto role (.destroy d')))
      | some (none, s') => some (s'.set t (c.goto role (afterDestroy (joins t) role)))
      | none => none
    | .mark => some (s.set t ((c.setFlag role).goto role .unlock))
    | .unlock => some (s.set t { c.goto role (afterUnlock role) with lock := false })
    | .exit => some (s.set t { c.goto role .gone with exited := true })
    | .wait =>
      some (if c.isFinished then
          s.set t { c.goto role (.destroy .lock) with destroyed := c.destroyed + 1 }
        else s)
    | .read => some (s.set t { c.goto role .joined with result := some c.returnedCode })
    | .unborn | .gone | .joined => none

end System

/-- No thread is created yet. -/
def init : State T where
  threads := fun _ =>
    { lock := false, isFinished := false, isDetached := false, returnedCode := 0, exited := false,
      runner := .unborn, agent := .create, result := none, destroyed := 0 }
  stackList := []
  lastStackLock := false
  freed := []

/-- Every thread has exited, and was joined or detached. -/
def Ended (s : State T) : Prop :=
  ∀ t, (s.threads t).runner = .gone ∧
    ((s.threads t).agent = .gone ∨ (s.threads t).agent = .joined)

/-! ## A thread and its agent -/

/-- Between the two calls of `thread->lock`. -/
def Pc.inSection : Pc T → Bool
  | .test | .destroy _ | .mark | .unlock => true
  | _ => false

/-- The flag of `cthread_runner` or `cthread_detach` is set. -/
def Pc.marked : Pc T → Bool
  | .unlock | .exit | .gone => true
  | _ => false

/-- It is decided whether this one destroys the thread. -/
def Pc.decided : Pc T → Bool
  | .destroy _ | .mark | .unlock | .exit | .gone | .read | .joined => true
  | _ => false

/-- In `cthread_destroy`. -/
def Pc.destroys : Pc T → Bool
  | .destroy _ => true
  | _ => false

/-- The function of the thread has ended. -/
def Pc.hasCode : Pc T → Bool
  | .unborn | .func => false
  | _ => true

def Pc.ofRunner : Pc T → Bool
  | .unborn | .func | .lock | .test | .destroy _ | .mark | .unlock | .exit | .gone => true
  | _ => false

def Pc.ofAgent (joins : Bool) : Pc T → Bool
  | .create | .destroy _ => true
  | .lock | .test | .mark | .unlock | .gone => !joins
  | .wait | .read | .joined => joins
  | _ => false

/-- What holds of one thread, whatever the others do. A thread that is joined is destroyed by the
    agent, one that is detached by the one of the two that comes second. -/
structure Local (joins : Bool) (code : Int) (c : Cthread T) : Prop where
  runner : c.runner.ofRunner = true
  agent : c.agent.ofAgent joins = true
  born : c.runner = .unborn ↔ c.agent = .create
  /-- A join is outside the lock of the thread. -/
  lock : c.runner.inSection.toNat + (!joins && c.agent.inSection).toNat = c.lock.toNat
  finished : c.isFinished = c.runner.marked
  detached : c.isDetached = c.agent.marked
  exited : c.exited = true ↔ c.runner = .gone
  destroyed : c.destroyed = (c.agent.decided && (joins || c.runner.decided)).toNat
  waited : joins = true → c.agent.decided = true → c.isFinished = true
  runnerTurn : c.runner.destroys = true → c.isDetached = true
  agentTurn : c.agent.destroys = true → c.isFinished = true
  returned : c.runner.hasCode = true → c.returnedCode = code
  result : c.agent = .joined → c.result = some code

/-- Who has set its flag has decided. -/
theorem Pc.decided_of_marked {p : Pc T} (h : p.marked = true) : p.decided = true := by
  cases p <;> simp_all [Pc.marked, Pc.decided]

theorem Pc.decided_of_destroys {p : Pc T} (h : p.destroys = true) : p.decided = true := by
  cases p <;> simp_all [Pc.destroys, Pc.decided]

theorem Pc.hasCode_of_marked {p : Pc T} (h : p.marked = true) : p.hasCode = true := by
  cases p <;> simp_all [Pc.marked, Pc.hasCode]

/-- Who has decided, and has not set its flag yet, is in the section. -/
theorem Pc.inSection_of_runner {p : Pc T} (h : p.ofRunner = true)
    (hdecided : p.decided = true) (hmarked : p.marked = false) : p.inSection = true := by
  cases p <;> simp_all [Pc.ofRunner, Pc.decided, Pc.marked, Pc.inSection]

theorem Pc.inSection_of_agent {p : Pc T} (h : p.ofAgent false = true)
    (hdecided : p.decided = true) (hmarked : p.marked = false) : p.inSection = true := by
  cases p <;> simp_all [Pc.ofAgent, Pc.decided, Pc.marked, Pc.inSection]

theorem Pc.not_marked {p : Pc T} (h : p.destroys = true) : p.marked = false := by
  cases p <;> simp_all [Pc.destroys, Pc.marked]

section Local

variable {joins : Bool} {code : Int} {c : Cthread T} {t : T} {p p' : Pc T} {lock : Bool} {destroyed : Nat}

/-- The runner is alone in the section. -/
theorem Local.runner_alone (h : Local joins code c) (hin : c.runner.inSection = true) :
    c.lock = true ∧ (!joins && c.agent.inSection) = false := by
  have hlock := h.lock
  rw [hin] at hlock
  cases hlocked : c.lock <;> cases hagent : (!joins && c.agent.inSection) <;> simp_all [Bool.toNat]

/-- The agent is alone in the section. -/
theorem Local.agent_alone (h : Local joins code c) (hin : (!joins && c.agent.inSection) = true) :
    c.lock = true ∧ c.runner.inSection = false := by
  have hlock := h.lock
  rw [hin] at hlock
  cases hlocked : c.lock <;> cases hrunner : c.runner.inSection <;> simp_all [Bool.toNat]

/-- Only one of the two destroys the thread, and the other one has set its flag. -/
theorem Local.turn (h : Local joins code c) {role : Role} (hdestroys : (c.pc role).destroys = true) :
    (c.pc role.other).marked = true := by
  cases role with
  | runner => exact h.detached.symm.trans (h.runnerTurn hdestroys)
  | agent => exact h.finished.symm.trans (h.agentTurn hdestroys)

theorem Local.one_destroys (h : Local joins code c) {role : Role}
    (hdestroys : (c.pc role).destroys = true) : (c.pc role.other).destroys = false := by
  refine Bool.eq_false_iff.2 fun hother => ?_
  have hmarked := h.turn hdestroys
  rw [Pc.not_marked hother] at hmarked
  cases hmarked

/-- The thread is not destroyed before the second one of the two decides. -/
theorem Local.not_destroyed (h : Local joins code c) {role : Role}
    (hpc : c.pc role = .test ∨ c.pc role = .wait) : c.destroyed = 0 := by
  have hundecided : (c.pc role).decided = false ∧ (c.pc role).marked = false := by
    rcases hpc with hpc | hpc <;> rw [hpc] <;> exact ⟨rfl, rfl⟩
  rw [h.destroyed]
  cases role with
  | agent =>
      rw [show c.agent.decided = false from hundecided.1]
      rfl
  | runner =>
      rw [show c.runner.decided = false from hundecided.1]
      cases hagent : c.agent.decided with
      | false => rfl
      | true =>
          -- a join would have seen `is_finished`
          cases joins with
          | false => rfl
          | true =>
              have hfinished := h.waited rfl hagent
              rw [h.finished, show c.runner.marked = false from hundecided.2] at hfinished
              cases hfinished

/-- A caller of `cthread_destroy` was counted. -/
theorem Local.destroyed_ne_zero (h : Local joins code c) {role : Role}
    (hdestroys : (c.pc role).destroys = true) : c.destroyed ≠ 0 := by
  have hself := Pc.decided_of_destroys hdestroys
  have hother := Pc.decided_of_marked (h.turn hdestroys)
  have hboth : c.runner.decided = true ∧ c.agent.decided = true := by
    cases role
    · exact ⟨hself, hother⟩
    · exact ⟨hother, hself⟩
  rw [h.destroyed, hboth.1, hboth.2, Bool.or_true]
  exact Nat.one_ne_zero

/-! ### Steps -/

/-- The runner goes from `p` to `p'`, and the thread changes with it. -/
theorem Local.runner_goto (h : Local joins code c) (hpc : c.runner = p) {finished exited : Bool}
    {returned : Int} (hof : p'.ofRunner = true) (hborn : p ≠ .unborn) (hborn' : p' ≠ .unborn)
    (hlock : p'.inSection.toNat + c.lock.toNat = p.inSection.toNat + lock.toNat)
    (hmarked : p.marked = true → p'.marked = true) (hfinished : finished = p'.marked)
    (hexited : exited = true ↔ p' = .gone)
    (hdestroyed : destroyed = (c.agent.decided && (joins || p'.decided)).toNat)
    (hturn : p'.destroys = true → c.isDetached = true)
    (hreturned : p'.hasCode = true → returned = code) :
    Local joins code { c with
      lock := lock, isFinished := finished, returnedCode := returned, exited := exited, runner := p',
      destroyed := destroyed } := by
  subst hpc
  have hkept : c.isFinished = true → finished = true := fun hold =>
    hfinished.trans (hmarked (h.finished.symm.trans hold))
  refine ⟨hof, h.agent, ?_, ?_, hfinished, h.detached, hexited, hdestroyed,
    fun hjoins hagent => hkept (h.waited hjoins hagent), hturn, fun hagent => hkept (h.agentTurn hagent),
    hreturned, h.result⟩
  · exact iff_of_false hborn' fun hagent => hborn (h.born.2 hagent)
  · have hold := h.lock
    show p'.inSection.toNat + (!joins && c.agent.inSection).toNat = lock.toNat
    omega

/-- The agent goes from `p` to `p'`, and the thread changes with it. -/
theorem Local.agent_goto (h : Local joins code c) (hpc : c.agent = p) {detached : Bool}
    {result : Option Int} (hof : p'.ofAgent joins = true) (hborn : p ≠ .create) (hborn' : p' ≠ .create)
    (hlock : (!joins && p'.inSection).toNat + c.lock.toNat
      = (!joins && p.inSection).toNat + lock.toNat)
    (hmarked : p.marked = true → p'.marked = true) (hdetached : detached = p'.marked)
    (hdestroyed : destroyed = (p'.decided && (joins || c.runner.decided)).toNat)
    (hwaited : joins = true → p'.decided = true → c.isFinished = true)
    (hturn : p'.destroys = true → c.isFinished = true)
    (hresult : p' = .joined → result = some code) :
    Local joins code { c with
      lock := lock, isDetached := detached, agent := p', result := result, destroyed := destroyed } := by
  subst hpc
  refine ⟨h.runner, hof, ?_, ?_, h.finished, hdetached, h.exited, hdestroyed, hwaited, fun hrunner => ?_,
    hturn, h.returned, hresult⟩
  · exact iff_of_false (fun hrunner => hborn (h.born.1 hrunner)) hborn'
  · have hold := h.lock
    show c.runner.inSection.toNat + (!joins && p'.inSection).toNat = lock.toNat
    omega
  · exact hdetached.trans (hmarked (h.detached.symm.trans (h.runnerTurn hrunner)))

/-- What holds while the runner is at `p`. -/
theorem Local.at_runner (h : Local joins code c) (hpc : c.runner = p) :
    c.isFinished = p.marked ∧ (c.exited = true ↔ p = .gone) ∧
      c.destroyed = (c.agent.decided && (joins || p.decided)).toNat ∧
      (p.hasCode = true → c.returnedCode = code) := by
  subst hpc
  exact ⟨h.finished, h.exited, h.destroyed, h.returned⟩

/-- What holds while the agent is at `p`. -/
theorem Local.at_agent (h : Local joins code c) (hpc : c.agent = p) :
    p.ofAgent joins = true ∧ c.isDetached = p.marked ∧
      c.destroyed = (p.decided && (joins || c.runner.decided)).toNat ∧
      (joins = true → p.decided = true → c.isFinished = true) := by
  subst hpc
  exact ⟨h.agent, h.detached, h.destroyed, h.waited⟩

theorem Local.create (h : Local joins code c) (hpc : c.agent = .create) :
    Local joins code ({ c with
      runner := Pc.func, agent := if joins then Pc.wait else Pc.lock } : Cthread T) := by
  have hrunner := h.born.2 hpc
  cases h
  cases joins <;> constructor <;> simp_all [Pc.ofRunner, Pc.ofAgent, Pc.inSection, Pc.marked, Pc.decided,
    Pc.destroys, Pc.hasCode]

theorem Local.func (h : Local joins code c) (hpc : c.runner = .func) :
    Local joins code ({ c with runner := Pc.lock, returnedCode := code } : Cthread T) := by
  obtain ⟨hfinished, hexited, hdestroyed, -⟩ := h.at_runner hpc
  exact h.runner_goto hpc rfl nofun nofun rfl id hfinished
    (hexited.trans (iff_of_false nofun nofun)) hdestroyed nofun fun _ => rfl

/-- The lock of the thread is taken. -/
theorem Local.lock_step (h : Local joins code c) {role : Role} (hpc : c.pc role = .lock)
    (hfree : c.lock = false) : Local joins code { c.goto role .test with lock := true } := by
  cases role with
  | runner =>
      obtain ⟨hfinished, hexited, hdestroyed, hreturned⟩ := h.at_runner hpc
      exact h.runner_goto hpc rfl nofun nofun (by rw [hfree]; rfl) id hfinished
        (hexited.trans (iff_of_false nofun nofun)) hdestroyed nofun hreturned
  | agent =>
      obtain ⟨hof, hdetached, hdestroyed, hwaited⟩ := h.at_agent hpc
      obtain rfl : joins = false := by simpa [Pc.ofAgent] using hof
      exact h.agent_goto hpc rfl nofun nofun (by rw [hfree]; rfl) id hdetached hdestroyed hwaited
        nofun nofun

/-- The one that comes second destroys the thread. -/
theorem Local.test_second (h : Local joins code c) {role : Role} (hpc : c.pc role = .test)
    (hflag : c.otherFlag role = true) :
    Local joins code { c.goto role (.destroy .lock) with destroyed := c.destroyed + 1 } := by
  have hzero := h.not_destroyed (Or.inl hpc)
  cases role with
  | runner =>
      obtain ⟨hfinished, hexited, -, hreturned⟩ := h.at_runner hpc
      have hagent := Pc.decided_of_marked (h.detached.symm.trans hflag)
      refine h.runner_goto hpc rfl nofun nofun rfl id hfinished
        (hexited.trans (iff_of_false nofun nofun)) ?_ (fun _ => hflag) hreturned
      rw [hzero, hagent]
      cases joins <;> rfl
  | agent =>
      obtain ⟨hof, hdetached, -, -⟩ := h.at_agent hpc
      have hrunner := Pc.decided_of_marked (h.finished.symm.trans hflag)
      refine h.agent_goto hpc rfl nofun nofun rfl id hdetached ?_ (fun _ _ => hflag)
        (fun _ => hflag) nofun
      rw [hzero, hrunner]
      cases joins <;> rfl

/-- The one that comes first leaves the thread to the other one. -/
theorem Local.test_first (h : Local joins code c) {role : Role} (hpc : c.pc role = .test)
    (hflag : c.otherFlag role = false) : Local joins code (c.goto role .mark) := by
  have hzero := h.not_destroyed (Or.inl hpc)
  cases role with
  | runner =>
      obtain ⟨hfinished, hexited, hdestroyed, hreturned⟩ := h.at_runner hpc
      have hin : c.runner.inSection = true := by rw [show c.runner = .test from hpc]; rfl
      have hagent : c.agent.decided = false := by
        refine Bool.eq_false_iff.2 fun hdecided => ?_
        cases joins with
        | true =>
            have hflag := hfinished.symm.trans (h.waited rfl hdecided)
            cases hflag
        | false =>
            have hsection := Pc.inSection_of_agent h.agent hdecided (h.detached.symm.trans hflag)
            have halone := (h.runner_alone hin).2
            rw [hsection] at halone
            cases halone
      refine h.runner_goto hpc rfl nofun nofun rfl id hfinished
        (hexited.trans (iff_of_false nofun nofun)) ?_ nofun hreturned
      rw [hzero, hagent]
      rfl
  | agent =>
      obtain ⟨hof, hdetached, hdestroyed, hwaited⟩ := h.at_agent hpc
      obtain rfl : joins = false := by simpa [Pc.ofAgent] using hof
      have hin : (!false && c.agent.inSection) = true := by rw [show c.agent = .test from hpc]; rfl
      have hrunner : c.runner.decided = false := by
        refine Bool.eq_false_iff.2 fun hdecided => ?_
        have hsection := Pc.inSection_of_runner h.runner hdecided (h.finished.symm.trans hflag)
        rw [(h.agent_alone hin).2] at hsection
        cases hsection
      refine h.agent_goto hpc rfl nofun nofun rfl id hdetached ?_ nofun nofun
        nofun
      rw [hzero, hrunner]
      rfl

theorem Local.destroy_step (h : Local joins code c) {role : Role} {d : DestroyPc T}
    (hpc : c.pc role = .destroy d) (d' : DestroyPc T) :
    Local joins code (c.goto role (.destroy d')) := by
  have hdestroys : (c.pc role).destroys = true := by
    rw [hpc]
    rfl
  have hturn := h.turn hdestroys
  cases role with
  | runner =>
      obtain ⟨hfinished, hexited, hdestroyed, hreturned⟩ := h.at_runner hpc
      exact h.runner_goto hpc rfl nofun nofun rfl id hfinished
        (hexited.trans (iff_of_false nofun nofun)) hdestroyed
        (fun _ => h.detached.trans hturn) hreturned
  | agent =>
      obtain ⟨hof, hdetached, hdestroyed, hwaited⟩ := h.at_agent hpc
      exact h.agent_goto hpc rfl nofun nofun rfl id hdetached hdestroyed hwaited
        (fun _ => h.finished.trans hturn) nofun

theorem Local.destroy_end (h : Local joins code c) {role : Role} {d : DestroyPc T}
    (hpc : c.pc role = .destroy d) : Local joins code (c.goto role (afterDestroy joins role)) := by
  cases role with
  | runner =>
      obtain ⟨hfinished, hexited, hdestroyed, hreturned⟩ := h.at_runner hpc
      exact h.runner_goto hpc rfl nofun nofun rfl id hfinished
        (hexited.trans (iff_of_false nofun nofun)) hdestroyed nofun hreturned
  | agent =>
      obtain ⟨hof, hdetached, hdestroyed, hwaited⟩ := h.at_agent hpc
      cases joins with
      | false =>
          exact h.agent_goto hpc rfl nofun nofun rfl id hdetached hdestroyed hwaited
            nofun nofun
      | true =>
          exact h.agent_goto hpc rfl nofun nofun rfl id hdetached hdestroyed hwaited
            nofun nofun

theorem Local.mark_step (h : Local joins code c) {role : Role} (hpc : c.pc role = .mark) :
    Local joins code ((c.setFlag role).goto role .unlock) := by
  cases role with
  | runner =>
      obtain ⟨-, hexited, hdestroyed, hreturned⟩ := h.at_runner hpc
      exact h.runner_goto hpc rfl nofun nofun rfl (fun _ => rfl) rfl
        (hexited.trans (iff_of_false nofun nofun)) hdestroyed nofun hreturned
  | agent =>
      obtain ⟨hof, -, hdestroyed, hwaited⟩ := h.at_agent hpc
      exact h.agent_goto hpc hof nofun nofun rfl (fun _ => rfl) rfl hdestroyed hwaited
        nofun nofun

theorem Local.unlock_step (h : Local joins code c) {role : Role} (hpc : c.pc role = .unlock) :
    Local joins code { c.goto role (afterUnlock role) with lock := false } := by
  cases role with
  | runner =>
      obtain ⟨hfinished, hexited, hdestroyed, hreturned⟩ := h.at_runner hpc
      have hin : c.runner.inSection = true := by rw [show c.runner = .unlock from hpc]; rfl
      exact h.runner_goto hpc rfl nofun nofun (by rw [(h.runner_alone hin).1]; rfl)
        id hfinished (hexited.trans (iff_of_false nofun nofun)) hdestroyed nofun hreturned
  | agent =>
      obtain ⟨hof, hdetached, hdestroyed, hwaited⟩ := h.at_agent hpc
      obtain rfl : joins = false := by simpa [Pc.ofAgent] using hof
      have hin : (!false && c.agent.inSection) = true := by rw [show c.agent = .unlock from hpc]; rfl
      exact h.agent_goto hpc rfl nofun nofun (by rw [(h.agent_alone hin).1]; rfl)
        id hdetached hdestroyed hwaited nofun nofun

theorem Local.exit_step (h : Local joins code c) (hpc : c.runner = .exit) :
    Local joins code ({ c with runner := Pc.gone, exited := true } : Cthread T) := by
  obtain ⟨hfinished, -, hdestroyed, hreturned⟩ := h.at_runner hpc
  exact h.runner_goto hpc rfl nofun nofun rfl id hfinished (iff_of_true rfl rfl) hdestroyed nofun
    hreturned

theorem Local.wait_step (h : Local joins code c) (hpc : c.agent = .wait) (hflag : c.isFinished = true) :
    Local joins code ({ c with
      agent := Pc.destroy .lock, destroyed := c.destroyed + 1 } : Cthread T) := by
  obtain ⟨hof, hdetached, -, -⟩ := h.at_agent hpc
  obtain rfl : joins = true := hof
  have hpc' : c.pc .agent = .wait := hpc
  refine h.agent_goto hpc rfl nofun nofun rfl id hdetached ?_ (fun _ _ => hflag) (fun _ => hflag)
    nofun
  rw [h.not_destroyed (Or.inr hpc')]
  rfl

theorem Local.read_step (h : Local joins code c) (hpc : c.agent = .read) :
    Local joins code ({ c with agent := Pc.joined, result := some c.returnedCode } : Cthread T) := by
  obtain ⟨hof, hdetached, hdestroyed, hwaited⟩ := h.at_agent hpc
  obtain rfl : joins = true := hof
  have hmarked : c.runner.marked = true := h.finished.symm.trans (hwaited rfl rfl)
  have hcode := h.returned (Pc.hasCode_of_marked hmarked)
  exact h.agent_goto hpc rfl nofun nofun rfl id hdetached hdestroyed hwaited nofun
    fun _ => congrArg some hcode

theorem local_init : Local joins code ((init : State T).threads t) := by
  constructor <;> simp [init, Pc.ofRunner, Pc.ofAgent, Pc.inSection, Pc.marked, Pc.decided, Pc.destroys,
    Pc.hasCode]

end Local

end SysProg.Detach
