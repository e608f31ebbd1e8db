import Mathlib.Data.List.Induction
import SysProg.Coro.Safety

set_option autoImplicit false

/-! # The order of a run

The events of the library follow a plan. A round goes through the list from its head, each yield to
the next member; a return ends the round, and then the first thing to happen is that
`coro_sched_wait` hands this coroutine back. `Plan` is an automaton over events that says so and has
nothing of the library in it but the list. -/

namespace SysProg.Libcoro

open LinkedList

/-! ## The plan -/

/-- What may happen next. -/
inductive Phase where
  /-- The main context or `coro_sched_wait` is in control. -/
  | sched
  | body (c : CoroPtr)
  /-- Control goes to a member, or to the scheduler. -/
  | yielded (dst : Option CoroPtr)
  /-- `c` has returned `v`, and control goes to the scheduler. -/
  | returned (c : CoroPtr) (v : Int)
  /-- `c` is to be handed back with `v`. -/
  | finished (c : CoroPtr) (v : Int)
deriving DecidableEq, Repr

structure Plan where
  members : List CoroPtr
  /-- The coroutines handed back and not deleted. -/
  kept : List CoroPtr
  brk : Nat
  phase : Phase
deriving DecidableEq, Repr

namespace Plan

def init : Plan := { members := [], kept := [], brk := 0, phase := .sched }

/-- A coroutine is created, in front of the members, or one that was handed back is deleted. -/
def manage (p : Plan) : Event → Option Plan
  | .new c =>
    if c = .node p.brk then some { p with members := c :: p.members, brk := p.brk + 1 } else none
  | .delete c => if c ∈ p.kept then some { p with kept := p.kept.filter (· ≠ c) } else none
  | _ => none

def step (p : Plan) (e : Event) : Option Plan :=
  match p.phase, e with
  | .sched, .yield .sched => some { p with phase := .yielded none }
  | .sched, .switch c => if p.members.head? = some c then some { p with phase := .body c } else none
  | .sched, .wait none => if p.members = [] then some p else none
  | .sched, e => p.manage e
  | .body c, .yield d =>
    if d = c then some { p with phase := .yielded (succ c p.members) } else none
  | .body c, .ret d v => if d = c then some { p with phase := .returned c v } else none
  | .body _, e => p.manage e
  | .yielded none, .switch .sched => some { p with phase := .sched }
  | .yielded (some c), .switch d => if d = c then some { p with phase := .body c } else none
  | .returned c v, .switch .sched => some { p with phase := .finished c v }
  | .finished c v, .wait (some r) =>
    if r = (c, true, v) then
      some { p with members := p.members.erase c, kept := p.kept ++ [c], phase := .sched }
    else none
  | _, _ => none

/-- The plan after the events `tr`, when they follow it. -/
def replay (tr : List Event) : Option Plan := tr.foldlM step init

theorem replay_append (tr es : List Event) :
    replay (tr ++ es) = (replay tr).bind fun p => es.foldlM step p :=
  List.foldlM_append ..

@[simp] theorem foldlM_single (p : Plan) (e : Event) : [e].foldlM step p = p.step e := by
  simp [List.foldlM]

theorem foldlM_pair (p : Plan) (e e' : Event) :
    [e, e'].foldlM step p = (p.step e).bind fun q => q.step e' := by
  rw [List.foldlM_cons]
  cases p.step e with
  | none => rfl
  | some q => exact foldlM_single q e'

/-! ## Results in order -/

/-- A coroutine that has returned and is still to be handed back. -/
def pending (p : Plan) : List (CoroPtr × Int) :=
  match p.phase with
  | .returned c v => [(c, v)]
  | .finished c v => [(c, v)]
  | _ => []

end Plan

/-- The coroutines that `coro_sched_wait` has returned, with their values. -/
def results (tr : List Event) : List (CoroPtr × Int) :=
  tr.filterMap fun | .wait (some (c, _, v)) => some (c, v) | _ => none

@[simp] theorem results_append (tr tr' : List Event) :
    results (tr ++ tr') = results tr ++ results tr' := List.filterMap_append

namespace Plan

theorem manage_phase {p q : Plan} {e : Event} (h : p.manage e = some q) :
    q.phase = p.phase ∧ returns [e] = [] ∧ results [e] = [] := by
  cases e with
  | new c =>
      rw [manage] at h
      split_ifs at h
      cases h
      exact ⟨rfl, rfl, rfl⟩
  | delete c =>
      rw [manage] at h
      split_ifs at h
      cases h
      exact ⟨rfl, rfl, rfl⟩
  | yield c => cases h
  | switch c => cases h
  | ret c v => cases h
  | wait r => cases h

/-- An event hands back what is pending, or leaves one coroutine pending. -/
theorem step_pending {p q : Plan} {e : Event} (h : p.step e = some q) :
    p.pending ++ returns [e] = results [e] ++ q.pending := by
  obtain ⟨members, kept, brk, phase⟩ := p
  have hmanage : ∀ {e : Event}, manage ⟨members, kept, brk, phase⟩ e = some q →
      pending ⟨members, kept, brk, phase⟩ ++ returns [e] = results [e] ++ q.pending := by
    intro e h
    obtain ⟨hphase, hret, hres⟩ := manage_phase h
    rw [hret, hres, pending, pending, hphase]
    exact List.append_nil _
  have hguard : ∀ {b : Prop} [Decidable b] {r : Plan},
      (if b then some r else none) = some q → b ∧ r = q := by
    intro b _ r h
    by_cases hb : b
    · rw [if_pos hb] at h
      exact ⟨hb, Option.some.inj h⟩
    · rw [if_neg hb] at h
      cases h
  cases phase with
  | sched =>
      cases e with
      | new c => exact hmanage h
      | delete c => exact hmanage h
      | ret c v => cases h
      | yield c =>
          cases c with
          | sched =>
              obtain rfl := Option.some.inj h
              rfl
          | node n => cases h
      | switch c =>
          obtain ⟨-, rfl⟩ := hguard h
          rfl
      | wait r =>
          cases r with
          | none =>
              obtain ⟨-, rfl⟩ := hguard h
              rfl
          | some r => cases h
  | body c =>
      cases e with
      | new d => exact hmanage h
      | delete d => exact hmanage h
      | switch d => cases h
      | wait r => cases h
      | yield d =>
          obtain ⟨-, rfl⟩ := hguard h
          rfl
      | ret d v =>
          obtain ⟨rfl, rfl⟩ := hguard h
          rfl
  | yielded dst =>
      cases e with
      | switch d =>
          cases dst with
          | none =>
              cases d with
              | sched =>
                  obtain rfl := Option.some.inj h
                  rfl
              | node n => cases h
          | some c =>
              obtain ⟨-, rfl⟩ := hguard h
              rfl
      | new | delete | yield | ret | wait => cases dst <;> cases h
  | returned c v =>
      cases e with
      | switch d =>
          cases d with
          | sched =>
              obtain rfl := Option.some.inj h
              rfl
          | node n => cases h
      | new | delete | yield | ret | wait => cases h
  | finished c v =>
      cases e with
      | wait r =>
          cases r with
          | none => cases h
          | some r =>
              obtain ⟨rfl, rfl⟩ := hguard h
              rfl
      | new | delete | yield | switch | ret => cases h

/-- **In a trace that follows the plan the coroutines are handed back in the order they return**, each
    before the next one runs. -/
theorem replay_results {tr : List Event} {p : Plan} (h : replay tr = some p) :
    returns tr = results tr ++ p.pending := by
  induction tr using List.reverseRecOn generalizing p with
  | nil =>
      cases h
      rfl
  | append_singleton tr e ih =>
      rw [replay_append, Option.bind_eq_some_iff] at h
      obtain ⟨q, hq, hstep⟩ := h
      rw [foldlM_single] at hstep
      rw [returns_append, ih hq, List.append_assoc, step_pending hstep, results_append,
        List.append_assoc]

end Plan

/-! ## The scheduler follows the plan -/

variable {K L M : Type}

/-- The coroutines handed back and not deleted. -/
def keptOf (tr : List Event) : List CoroPtr := (waited tr).filter fun c => c ∉ deleted tr

namespace Sched

/-- The phase of a scheduler. A member is finished only until it is handed back. -/
def InPhase (a : Sched K L M) : Phase → Prop
  | .sched => (∀ c k, a.control ≠ .body c k) ∧ ∀ d ∈ a.members, a.isFinished d = false
  | .body c => ∃ k, a.control = .body c k
  | .finished c v => (∃ k, a.control = .wait k) ∧ c ∈ a.members ∧
      (∃ n, a.threads c = some ⟨.finished v, n⟩) ∧
      ∀ d ∈ a.members, d ≠ c → a.isFinished d = false
  | _ => False

/-- The scheduler `a` is where the plan `p` is. -/
structure Matches (a : Sched K L M) (p : Plan) : Prop where
  members : p.members = a.members
  kept : p.kept = keptOf a.trace
  brk : p.brk = a.brk
  phase : a.InPhase p.phase

/-- The events of a step, and the plan after them. -/
def Follows (a' : Sched K L M) (tr : List Event) (p : Plan) : Prop :=
  ∃ es p', a'.trace = tr ++ es ∧ es.foldlM Plan.step p = some p' ∧ a'.Matches p'

variable {a a' : Sched K L M} {p : Plan}

theorem keptOf_neutral {tr es : List Event} (hw : waited es = []) (hd : deleted es = []) :
    keptOf (tr ++ es) = keptOf tr := by
  simp [keptOf, hw, hd]

theorem keptOf_delete (tr : List Event) (c : CoroPtr) :
    keptOf (tr ++ [.delete c]) = (keptOf tr).filter (· ≠ c) := by
  have hw : waited [.delete c] = [] := rfl
  have hd : deleted [.delete c] = [c] := rfl
  rw [keptOf, keptOf, waited_append, deleted_append, hw, hd, List.append_nil, List.filter_filter]
  refine List.filter_congr fun d _ => ?_
  simp [and_comm]

theorem keptOf_take {members : List CoroPtr} {threads : CoroPtr → Option (Thread L)} {brk : Nat}
    {tr : List Event} (h : Book members threads brk tr) {c : CoroPtr} (hc : c ∈ members) (v : Int) :
    keptOf (tr ++ [.wait (some (c, true, v))]) = keptOf tr ++ [c] := by
  have hw : waited [.wait (some (c, true, v))] = [c] := rfl
  have hd : deleted [.wait (some (c, true, v))] = [] := rfl
  have hnot : c ∉ deleted tr := fun hdel => h.not_waited hc (h.deleted_waited c hdel)
  rw [keptOf, keptOf, waited_append, deleted_append, hw, hd, List.append_nil, List.filter_append,
    List.filter_cons_of_pos (by simpa using hnot), List.filter_nil]

theorem delete_brk {b : Sched K L M} {c : CoroPtr} (h : a.delete c = pure b) : b.brk = a.brk := by
  unfold delete at h
  split_ifs at h
  · cases h
    rfl
  · cases h

/-- Deleting leaves the members as they are. -/
theorem delete_unfinished {b : Sched K L M} {c : CoroPtr} (ha : a.Inv) (h : a.delete c = pure b)
    (hall : ∀ d ∈ a.members, a.isFinished d = false) : ∀ d ∈ b.members, b.isFinished d = false := by
  obtain ⟨hc, hmem, -, hthreads, -⟩ := delete_book ha.book h
  rw [hmem]
  intro d hd
  have hne : d ≠ c := fun he => ha.book.not_waited hd (he ▸ hc)
  have hold : b.isFinished d = a.isFinished d := by
    simp [isFinished, hthreads, Function.update_of_ne hne]
  exact hold.trans (hall d hd)

/-- A step of `coro_sched_wait`. -/
theorem wait_follows (ha : a.Inv) {k : Option CoroPtr → K} (hctl : a.control = .wait k)
    (h : a.Matches p) : (a.wait k).Follows a.trace p := by
  obtain ⟨members, kept, brk, phase⟩ := p
  obtain ⟨hmembers, hkept, hbrk, hphase⟩ := h
  simp only at hmembers hkept hbrk hphase
  subst hmembers
  cases phase with
  | sched =>
      obtain ⟨-, hall⟩ := hphase
      have hfind : a.members.find? a.isFinished = none := by
        rw [List.find?_eq_none]
        intro d hd
        rw [hall d hd]
        decide
      unfold wait
      rw [hfind]
      cases hlist : a.members with
      | nil =>
          refine ⟨[.wait none], ⟨[], kept, brk, .sched⟩, rfl, rfl, rfl, ?_, hbrk, ?_⟩
          · exact hkept.trans (keptOf_neutral rfl rfl).symm
          · exact ⟨fun c k hc => (by cases hc), by simp⟩
      | cons c rest =>
          refine ⟨[.switch c], ⟨c :: rest, kept, brk, .body c⟩, rfl, ?_, rfl, ?_, hbrk, k, rfl⟩
          · rw [Plan.foldlM_single]
            simp [Plan.step]
          · exact hkept.trans (keptOf_neutral rfl rfl).symm
  | finished c v =>
      obtain ⟨-, hc, ⟨n, ht⟩, hall⟩ := hphase
      have hfin : a.isFinished c = true := isFinished_eq ht
      have hfind : a.members.find? a.isFinished = some c := by
        cases hf : a.members.find? a.isFinished with
        | none =>
            rw [List.find?_eq_none] at hf
            exact absurd hfin (hf c hc)
        | some d =>
            by_cases hdc : d = c
            · rw [hdc]
            · have hd := hall d (List.mem_of_find?_eq_some hf) hdc
              rw [List.find?_some hf] at hd
              cases hd
      have hret : a.retOf c = v := by simp [retOf, ht, Thread.ret]
      unfold wait
      rw [hfind]
      refine ⟨[.wait (some (c, true, v))], ⟨a.members.erase c, kept ++ [c], brk, .sched⟩,
        by simp [hret], ?_, rfl, ?_, hbrk, fun d k' hd => (by cases hd), ?_⟩
      · rw [Plan.foldlM_single]
        simp [Plan.step]
      · show kept ++ [c] = keptOf (a.trace ++ [.wait (some (c, true, a.retOf c))])
        rw [hret, hkept]
        exact (keptOf_take ha.book hc v).symm
      · intro d hd
        have hne : d ≠ c := by
          rintro rfl
          exact (List.nodup_append.1 ha.book.nodup).2.1.not_mem_erase hd
        exact hall d (List.mem_of_mem_erase hd) hne
  | body c =>
      obtain ⟨k', hk'⟩ := hphase
      rw [hctl] at hk'
      cases hk'
  | yielded d => cases hphase
  | returned c v => cases hphase

/-- A deletion, from the main context or from a body. -/
theorem delete_follows {b : Sched K L M} {c : CoroPtr} (h : a.Matches p)
    (hdel : a.delete c = pure b) : p.manage (.delete c)
      = some { p with kept := keptOf b.trace } := by
  have hc : c ∈ waited a.trace ∧ c ∉ deleted a.trace := by
    unfold delete at hdel
    split_ifs at hdel with hc
    · exact hc
    · cases hdel
  have hmem : c ∈ p.kept := by
    rw [h.kept, keptOf, List.mem_filter]
    exact ⟨hc.1, by simpa using hc.2⟩
  rw [Plan.manage, if_pos hmem, delete_trace hdel, keptOf_delete, h.kept]

/-- A call of the main context. -/
theorem mainCall_follows {k : K} {call : MainCall K L} (ha : a.Inv) (hctl : a.control = .main k)
    (h : a.Matches p) (hrun : a.mainCall call = pure a') : a'.Follows a.trace p := by
  obtain ⟨members, kept, brk, phase⟩ := p
  obtain ⟨hmembers, hkept, hbrk, hphase⟩ := h
  simp only at hmembers hkept hbrk hphase
  -- while the main context runs the phase is the scheduler's
  obtain rfl : phase = .sched := by
    cases phase with
    | sched => rfl
    | body c =>
        obtain ⟨k', hk'⟩ := hphase
        rw [hctl] at hk'
        cases hk'
    | finished c v =>
        obtain ⟨⟨k', hk'⟩, -⟩ := hphase
        rw [hctl] at hk'
        cases hk'
    | yielded d => cases hphase
    | returned c v => cases hphase
  have hall := hphase.2
  have hmatches : a.Matches ⟨members, kept, brk, .sched⟩ := ⟨hmembers, hkept, hbrk, hphase⟩
  rcases call with (x | ⟨func, x⟩ | ⟨c, x⟩) | k' | _
  case call.yield =>
    obtain rfl := (lib_pure_inj _ _).1 hrun
    refine ⟨[.yield .sched, .switch .sched], ⟨members, kept, brk, .sched⟩, rfl, ?_, hmembers, ?_,
      hbrk, fun c k hc => (by cases hc), hall⟩
    · rw [Plan.foldlM_pair]
      rfl
    · exact hkept.trans (keptOf_neutral rfl rfl).symm
  case call.new =>
    obtain rfl := (lib_pure_inj _ _).1 hrun
    refine ⟨[.new (.node a.brk)], ⟨.node a.brk :: members, kept, brk + 1, .sched⟩, rfl, ?_, ?_, ?_,
      ?_, fun c k hc => (by cases hc), create_unfinished func hall⟩
    · rw [Plan.foldlM_single]
      simp [Plan.step, Plan.manage, hbrk]
    · rw [hmembers]
      rfl
    · exact hkept.trans (keptOf_neutral rfl rfl).symm
    · rw [hbrk]
      rfl
  case call.delete =>
    obtain ⟨b, hdel, hb⟩ := lib_bind hrun
    obtain rfl := (lib_pure_inj _ _).1 hb
    obtain ⟨-, hmem, -, -, -⟩ := delete_book ha.book hdel
    have htrace := delete_trace hdel
    have hopen := delete_unfinished ha hdel hall
    refine ⟨[.delete c], ⟨members, keptOf b.trace, brk, .sched⟩, htrace, ?_,
      hmembers.trans hmem.symm, rfl, hbrk.trans (delete_brk hdel).symm, fun d k hd => (by cases hd),
      ?_⟩
    · rw [Plan.foldlM_single]
      exact delete_follows hmatches hdel
    · exact hopen
  case wait =>
    obtain rfl := (lib_pure_inj _ _).1 hrun
    exact ⟨[], ⟨members, kept, brk, .sched⟩, (List.append_nil _).symm, rfl, hmembers, hkept, hbrk,
      fun c k hc => (by cases hc), hall⟩
  case done =>
    obtain rfl := (lib_pure_inj _ _).1 hrun
    exact ⟨[], ⟨members, kept, brk, .sched⟩, (List.append_nil _).symm, rfl, hmembers, hkept, hbrk,
      fun c k hc => (by cases hc), hall⟩

/-- A call of the body of `c`. -/
theorem bodyCall_follows {c : CoroPtr} {k : Option CoroPtr → K} {n : Int} {call : BodyCall L}
    (ha : a.Inv) (hctl : a.control = .body c k) (h : a.Matches p)
    (hrun : a.bodyCall c n k call = pure a') : a'.Follows a.trace p := by
  obtain ⟨members, kept, brk, phase⟩ := p
  obtain ⟨hmembers, hkept, hbrk, hphase⟩ := h
  simp only at hmembers hkept hbrk hphase
  obtain rfl : phase = .body c := by
    cases phase with
    | sched => exact absurd hctl (hphase.1 c k)
    | body d =>
        obtain ⟨k', hk'⟩ := hphase
        rw [hctl] at hk'
        rw [(Control.body.inj hk').1]
    | finished d v =>
        obtain ⟨⟨k', hk'⟩, -⟩ := hphase
        rw [hctl] at hk'
        cases hk'
    | yielded d => cases hphase
    | returned d v => cases hphase
  obtain ⟨hc, hall⟩ := ha.running c k hctl
  have hmatches : a.Matches ⟨members, kept, brk, .body c⟩ := ⟨hmembers, hkept, hbrk, hphase⟩
  rcases call with (x | ⟨func, x⟩ | ⟨d, x⟩) | v
  case call.yield =>
    obtain rfl := (lib_pure_inj _ _).1 hrun
    subst hmembers
    cases hsucc : succ c a.members with
    | none =>
        refine ⟨[.yield c, .switch .sched], ⟨a.members, kept, brk, .sched⟩, ?_, ?_, rfl, ?_, hbrk,
          fun d k hd => (by cases hd), setReady_unfinished hall⟩
        · simp [switchTo, log, setThread]
        · rw [Plan.foldlM_pair]
          simp [Plan.step, hsucc]
        · simp only [switchTo, log, setThread, List.append_assoc]
          exact hkept.trans (keptOf_neutral rfl rfl).symm
    | some d =>
        refine ⟨[.yield c, .switch d], ⟨a.members, kept, brk, .body d⟩, ?_, ?_, rfl, ?_, hbrk,
          k, rfl⟩
        · simp [switchTo, log, setThread]
        · rw [Plan.foldlM_pair]
          simp [Plan.step, hsucc]
        · simp only [switchTo, log, setThread, List.append_assoc]
          exact hkept.trans (keptOf_neutral rfl rfl).symm
  case call.new =>
    obtain rfl := (lib_pure_inj _ _).1 hrun
    refine ⟨[.new (.node a.brk)], ⟨.node a.brk :: members, kept, brk + 1, .body c⟩, rfl, ?_, ?_, ?_,
      ?_, k, hctl⟩
    · rw [Plan.foldlM_single]
      simp [Plan.step, Plan.manage, hbrk]
    · rw [hmembers]
      rfl
    · exact hkept.trans (keptOf_neutral rfl rfl).symm
    · rw [hbrk]
      rfl
  case call.delete =>
    obtain ⟨b, hdel, hb⟩ := lib_bind hrun
    obtain rfl := (lib_pure_inj _ _).1 hb
    obtain ⟨-, hmem, hcontrol, -, -⟩ := delete_book ha.book hdel
    have htrace := delete_trace hdel
    refine ⟨[.delete d], ⟨members, keptOf b.trace, brk, .body c⟩, htrace, ?_,
      hmembers.trans hmem.symm, rfl, hbrk.trans (delete_brk hdel).symm, k, hcontrol.trans hctl⟩
    rw [Plan.foldlM_single]
    exact delete_follows hmatches hdel
  case ret =>
    obtain rfl := (lib_pure_inj _ _).1 hrun
    refine ⟨[.ret c v, .switch .sched], ⟨members, kept, brk, .finished c v⟩, ?_, ?_, hmembers, ?_,
      hbrk, ⟨k, rfl⟩, hc, ⟨n, ?_⟩, ?_⟩
    · simp [switchTo, log, setThread]
    · rw [Plan.foldlM_pair]
      simp [Plan.step]
    · simp only [switchTo, log, setThread, List.append_assoc]
      exact hkept.trans (keptOf_neutral rfl rfl).symm
    · exact Function.update_self ..
    · intro d hd hne
      exact (isFinished_update hne).trans (hall d hd)

/-- **A step follows the plan.** -/
theorem step_follows {P : Program K L M} (ha : a.Inv) (h : a.Matches p)
    (hstep : step P a = pure (some a')) : a'.Follows a.trace p := by
  rcases step_cases hstep with ⟨k, hctl, rfl⟩ | ⟨k, call, mem, hctl, -, hrun⟩ |
    ⟨c, k, l, n, call, mem, hctl, -, -, hrun⟩
  · exact wait_follows ha hctl h
  · exact mainCall_follows (a := { a with mem := mem }) ⟨ha.book, ha.running⟩ hctl
      ⟨h.members, h.kept, h.brk, h.phase⟩ hrun
  · exact bodyCall_follows (a := { a with mem := mem }) ⟨ha.book, ha.running⟩ hctl
      ⟨h.members, h.kept, h.brk, h.phase⟩ hrun

theorem reaches_follows {P : Program K L M} {k : K} {mem : M}
    (h : Run.Reaches (step P) (init k mem) a) :
    a.Inv ∧ ∃ p, Plan.replay a.trace = some p ∧ a.Matches p := by
  induction h with
  | refl =>
      exact ⟨inv_init k mem, .init, rfl, rfl, rfl, rfl, fun c k hc => (by cases hc),
        fun d hd => by cases hd⟩
  | tail _ hgoes ih =>
      obtain ⟨ha, p, hp, hmatches⟩ := ih
      obtain ⟨es, p', htrace, hes, hmatches'⟩ := step_follows ha hmatches hgoes
      refine ⟨step_inv ha hgoes, p', ?_, hmatches'⟩
      rw [htrace, Plan.replay_append, hp]
      exact hes

end Sched

/-! ## The library -/

/-- **The events of the library follow the plan**: in every run rounds go through the list from its
    head, a yield passes control to the next member, and a coroutine that returns is handed back
    before anything else runs; and the list of the library is the one of the plan. -/
theorem trace_follows (P : Program K L M) (k : K) (mem : M) (s : State K L M)
    (h : Reaches P (init k mem) s) :
    ∃ p, Plan.replay s.trace = some p ∧
      IsList (fun d => (s.heap d).bind Coro.next) (fun d => (s.heap d).bind Coro.prev) s.coroList
        p.members := by
  obtain ⟨a, hreach, hrep, -⟩ := h.sched
  obtain ⟨-, p, hp, hmatches⟩ := Sched.reaches_follows hreach
  refine ⟨p, by rw [hrep.trace, hp], ?_⟩
  rw [hmatches.members]
  exact hrep.heap.list

/-- Both coroutines run before the second one returns, and only the first one is left. -/
theorem trace_follows_twoWorkers :
    ∃ s, Run.after (step twoWorkers) 12 (init .first ()) = s ∧
      s.trace = [.new (.node 0), .new (.node 1), .switch (.node 1), .yield (.node 1),
        .switch (.node 0), .yield (.node 0), .switch .sched, .switch (.node 1), .ret (.node 1) 5,
        .switch .sched, .wait (some (.node 1, true, 5)), .delete (.node 1), .switch (.node 0)] ∧
      ∃ p, Plan.replay s.trace = some p ∧
        IsList (fun d => (s.heap d).bind Coro.next) (fun d => (s.heap d).bind Coro.prev) s.coroList
          p.members :=
  ⟨_, rfl, rfl, trace_follows twoWorkers .first ()
    (Run.after (step twoWorkers) 12 (init .first ())) (Run.after_reaches ..)⟩

/-- **Coroutines are handed back in the order they return**: in every state the results of
    `coro_sched_wait` so far are all the returns so far, in the same order; but for the last one, while
    `coro_sched_wait` is about to hand it back. -/
theorem results_in_order (P : Program K L M) (k : K) (mem : M) (s : State K L M)
    (h : Reaches P (init k mem) s) :
    returns s.trace = results s.trace ∨
      ∃ k' c v, s.point = .wait k' ∧ returns s.trace = results s.trace ++ [(c, v)] := by
  obtain ⟨a, hreach, hrep, -⟩ := h.sched
  obtain ⟨-, p, hp, hmatches⟩ := Sched.reaches_follows hreach
  have hresults := Plan.replay_results hp
  have hphase := hmatches.phase
  rw [hrep.trace]
  rw [Plan.pending] at hresults
  cases hph : p.phase with
  | sched => exact Or.inl (by rw [hresults, hph, List.append_nil])
  | body c => exact Or.inl (by rw [hresults, hph, List.append_nil])
  | finished c v =>
      rw [hph] at hphase hresults
      obtain ⟨⟨k', hctl⟩, -⟩ := hphase
      have hpoint := hrep.point
      rw [PointRep, hctl] at hpoint
      exact Or.inr ⟨k', c, v, hpoint, hresults⟩
  | yielded d =>
      rw [hph] at hphase
      cases hphase
  | returned c v =>
      rw [hph] at hphase
      cases hphase

/-- After its return the first coroutine is about to be handed back, behind the second one. -/
theorem results_in_order_twoWorkers :
    ∃ s, Run.after (step twoWorkers) 15 (init .first ()) = s ∧
      returns s.trace = [(.node 1, 5), (.node 0, 7)] ∧ results s.trace = [(.node 1, 5)] ∧
      (returns s.trace = results s.trace ∨
        ∃ k' c v, s.point = .wait k' ∧ returns s.trace = results s.trace ++ [(c, v)]) :=
  ⟨_, rfl, rfl, rfl, results_in_order twoWorkers .first ()
    (Run.after (step twoWorkers) 15 (init .first ())) (Run.after_reaches ..)⟩

end SysProg.Libcoro
