import SysProg.Coro.Effect
import SysProg.Coro.Simulation

set_option autoImplicit false

/-! # The library never switches to a bad context

In every reachable state a running body is a member of the list, the scheduler waits for it, and no
member is finished; so every switch goes to a coroutine that lives and can go on. -/

namespace SysProg.Libcoro

open LinkedList

variable {K L M : Type}

/-! ## The library -/

/-- A live coroutine of the scheduler is one of the library's memory. -/
theorem Rep.live {s : State K L M} {a : Sched K L M} (h : Rep s a) (ha : a.Inv) {d : CoroPtr}
    (hd : a.Live d) : d ∉ deleted s.trace ∧ ∃ r, s.heap d = some r ∧ r.isFinished = false := by
  have hdel : ∀ c ∈ deleted a.trace, c ∈ waited a.trace := ha.book.deleted_waited
  rw [h.trace]
  rcases hd with rfl | ⟨hd, hfin⟩
  · obtain ⟨r, hr, -, hshadow⟩ := h.heap.sched
    refine ⟨fun hs => ?_, r, hr, congrArg (fun p => p.2.1) hshadow⟩
    obtain ⟨n, hn, -⟩ := ha.book.created_node (ha.book.waited_created (hdel _ hs))
    cases hn
  · obtain ⟨i, r, t, rfl, hr, ht, hshadow⟩ := h.member ha hd
    rw [Sched.isFinished_eq ht] at hfin
    refine ⟨fun hs => ha.book.not_waited hd (hdel _ hs), r, hr, ?_⟩
    exact (congrArg (fun p => p.2.1) hshadow).trans hfin

/-- What holds while the body of `c` runs. -/
structure BodyRuns (s : State K L M) (c : CoroPtr) : Prop where
  waiting : s.isSchedWaiting = true
  this : s.coroThisPtr = some c
  list : ∃ cs, IsList (fun d => (s.heap d).bind Coro.next) (fun d => (s.heap d).bind Coro.prev)
    s.coroList cs ∧ c ∈ cs ∧ ∀ d ∈ cs, ∃ r, s.heap d = some r ∧ r.isFinished = false

theorem Rep.bodyRuns {s : State K L M} {a : Sched K L M} (h : Rep s a) (ha : a.Inv) {c : CoroPtr}
    {l : L} (hpoint : s.point = .user (.body c l)) : BodyRuns s c := by
  have hrep := h.point
  have hthis := h.this
  rw [PointRep] at hrep
  rw [Sched.this] at hthis
  cases hctl : a.control with
  | halted => rw [hctl, hpoint] at hrep; cases hrep
  | wait k => rw [hctl, hpoint] at hrep; cases hrep
  | main k => rw [hctl, hpoint] at hrep; cases hrep
  | body d k =>
      rw [hctl] at hrep hthis
      obtain ⟨hwait, ⟨l', n, -, hp⟩, -⟩ := hrep
      rw [hpoint] at hp
      obtain ⟨rfl, -⟩ := Frame.body.inj (Point.user.inj hp)
      obtain ⟨hc, hall⟩ := ha.running c k hctl
      refine ⟨hwait, hthis, a.members, h.heap.list, hc, fun d hd => ?_⟩
      exact (h.live ha (Or.inr ⟨hd, hall d hd⟩)).2

/-- **The scheduler is safe**: in every reachable state a running body is a member of the list while
    the scheduler waits and no member is finished, the library neither follows a bad pointer nor
    finds no place to return, and a step switches to coroutines only that live and can go on. -/
theorem scheduler_safe (P : Program K L M) (k : K) (mem : M) (s : State K L M)
    (h : Reaches P (init k mem) s) :
    (∀ c l, s.point = .user (.body c l) → BodyRuns s c) ∧
    step P s ≠ throw .critical ∧ step P s ≠ throw .fault ∧
    ∀ s', step P s = pure (some s') → ∃ es, s'.trace = s.trace ++ es ∧
      ∀ d, .switch d ∈ es →
        d ∉ deleted s.trace ∧ ∃ r, s.heap d = some r ∧ r.isFinished = false := by
  obtain ⟨a, -, hrep, ha⟩ := h.sched
  have hsim := library_simulates P
  refine ⟨fun c l hpoint => hrep.bodyRuns ha hpoint, ?_, ?_, ?_⟩
  · intro hstep
    obtain ⟨u, hu⟩ := Sched.step_error ha (hsim.error_inv ⟨hrep, ha⟩ hstep)
    cases hu
  · intro hstep
    obtain ⟨u, hu⟩ := Sched.step_error ha (hsim.error_inv ⟨hrep, ha⟩ hstep)
    cases hu
  · intro s' hstep
    obtain ⟨a', hgoes, hrep', -⟩ := hsim.goes_inv ⟨hrep, ha⟩ hstep
    obtain ⟨es, hes, heffect⟩ := Sched.step_extends ha hgoes
    exact ⟨es, by rw [hrep'.trace, hrep.trace, hes], fun d hd => hrep.live ha (heffect.live hd)⟩

/-- Where the main context of `twoWorkers` is. -/
inductive MainStage where
  | first
  | second
  | waiting
  | collected (c : CoroPtr)
  | over

/-- Two coroutines, each with how often it still yields and what it returns: the first yields twice and
    the second once. The main context deletes each one it is handed. -/
def twoWorkers : Program MainStage (Nat × Int) Unit where
  main _ k mem := pure (match k with
    | .first => .call (.new (2, 7) fun _ => .second)
    | .second => .call (.new (1, 5) fun _ => .waiting)
    | .waiting => .wait fun r => r.elim .over .collected
    | .collected c => .call (.delete c .waiting)
    | .over => .done, mem)
  body _ l mem := pure (match l.1 with
    | n + 1 => .call (.yield (n, l.2))
    | 0 => .ret l.2, mem)

/-- The first coroutine runs again after the second one has been handed back and deleted. -/
theorem scheduler_safe_twoWorkers :
    ∃ s, Run.after (step twoWorkers) 12 (init .first ()) = s ∧ deleted s.trace = [.node 1] ∧
      s.point = .user (.body (.node 0) (1, 7)) ∧ BodyRuns s (.node 0) ∧
      step twoWorkers s ≠ throw .critical ∧ step twoWorkers s ≠ throw .fault ∧
      ∀ s', step twoWorkers s = pure (some s') → ∃ es, s'.trace = s.trace ++ es ∧
        ∀ d, .switch d ∈ es →
          d ∉ deleted s.trace ∧ ∃ r, s.heap d = some r ∧ r.isFinished = false := by
  obtain ⟨hruns, hsafe⟩ := scheduler_safe twoWorkers .first ()
    (Run.after (step twoWorkers) 12 (init .first ())) (Run.after_reaches ..)
  exact ⟨_, rfl, rfl, rfl, hruns _ _ rfl, hsafe⟩

end SysProg.Libcoro
