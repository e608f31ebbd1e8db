import SysProg.Coro.Heap

set_option autoImplicit false

/-! # The library implements the scheduler

Every step of the library is a step of the scheduler without pointers, on memory that represents its
state (`Rep`). In particular no step follows a bad pointer, jumps to a bad context or finds no place
to return. -/

namespace SysProg.Libcoro

open LinkedList

variable {K L M : Type}

/-! ## What the library's functions do -/

theorem alter_used {heap : CoroPtr → Option (Coro K L)} {c : CoroPtr} {r : Coro K L}
    (hr : heap c = some r) :
    alter heap c (fun r => { r with ctx := .unset }) = Function.update heap c (some r.used) :=
  alter_of_some hr _

theorem longjmp_member {s : State K L M} {c : CoroPtr} {r : Coro K L} {l : L}
    (hr : s.heap c = some r) (hres : r.resumes c = some l) :
    longjmp s c = pure { s with
      heap := Function.update s.heap c (some r.used)
      coroThisPtr := some c
      point := .user (.body c l)
      trace := s.trace ++ [.switch c] } := by
  simp only [longjmp, State.get, hr, modify_run hr, alter_used hr, pure_bind, State.log]
  cases hctx : r.ctx with
  | unset => simp [Coro.resumes, hctx] at hres
  | body d =>
      rw [Coro.resumes, hctx] at hres
      simp only at hres
      split_ifs at hres with hd
      subst hd
      have hfunc : r.used.func = some l := hres
      simp [hfunc]
  | yieldTo src caller =>
      cases caller with
      | wait k => simp [Coro.resumes, hctx] at hres
      | yield f =>
          cases f with
          | main k => simp [Coro.resumes, hctx] at hres
          | body d x =>
              rw [Coro.resumes, hctx] at hres
              simp only at hres
              split_ifs at hres with hd
              obtain ⟨rfl, rfl⟩ := hd
              obtain rfl := Option.some.inj hres
              rfl

theorem longjmp_wait {s : State K L M} {c src : CoroPtr} {r : Coro K L} {k : Option CoroPtr → K}
    (hr : s.heap c = some r) (hctx : r.ctx = .yieldTo src (.wait k)) :
    longjmp s c = pure { s with
      heap := Function.update s.heap c (some r.used)
      coroThisPtr := some src
      isSchedWaiting := false
      point := .wait k
      trace := s.trace ++ [.switch c] } := by
  simp only [longjmp, State.get, hr, modify_run hr, alter_used hr, pure_bind, State.log, hctx]

theorem longjmp_yield {s : State K L M} {c src : CoroPtr} {r : Coro K L} {f : Frame K L}
    (hr : s.heap c = some r) (hctx : r.ctx = .yieldTo src (.yield f)) :
    longjmp s c = pure { s with
      heap := Function.update s.heap c (some r.used)
      coroThisPtr := some src
      point := .user f
      trace := s.trace ++ [.switch c] } := by
  simp only [longjmp, State.get, hr, modify_run hr, alter_used hr, pure_bind, State.log, hctx]

/-- The memory of a coroutine that has just saved its context in `coro_yield_to`. -/
def Coro.saved (r : Coro K L) (src : CoroPtr) (caller : Caller K L) : Coro K L :=
  { r with switchCount := r.switchCount + 1, ctx := .yieldTo src caller }

theorem saved_shadow {r : Coro K L} {v n : Int} {f : Bool} (h : r.shadow = (v, f, n))
    (src : CoroPtr) (caller : Caller K L) :
    (r.saved src caller).used.shadow = (v, f, n + 1) := by
  simp only [Coro.shadow, Prod.mk.injEq] at h
  simp [Coro.shadow, Coro.used, Coro.saved, h]

theorem coroYieldTo_run {s : State K L M} {src : CoroPtr} {r : Coro K L}
    (hthis : s.coroThisPtr = some src) (hr : s.heap src = some r) (dst : CoroPtr)
    (caller : Caller K L) :
    coroYieldTo s dst caller
      = longjmp { s with heap := Function.update s.heap src (some (r.saved src caller)) } dst := by
  have hr' : Function.update s.heap src (some { r with switchCount := r.switchCount + 1 }) src
      = some { r with switchCount := r.switchCount + 1 } := Function.update_self ..
  simp only [coroYieldTo, hthis, State.modify, State.get, hr, pure_bind, hr', Function.update_idem,
    Coro.saved]

theorem coroYield_run {s : State K L M} {src : CoroPtr} {r : Coro K L}
    (hthis : s.coroThisPtr = some src) (hr : s.heap src = some r) (f : Frame K L) :
    coroYield s f = longjmp { s with
      heap := Function.update s.heap src (some (r.saved src (.yield f)))
      trace := s.trace ++ [.yield src] } (r.next.getD .sched) := by
  refine Eq.trans ?_
    (coroYieldTo_run (s := s.log (.yield src)) hthis hr (r.next.getD .sched) (.yield f))
  simp only [coroYield, hthis, State.get, hr, pure_bind]
  cases r.next <;> rfl

/-- The main context yields to itself. -/
theorem coroYield_self {s : State K L M} {r : Coro K L} (hthis : s.coroThisPtr = some .sched)
    (hr : s.heap .sched = some r) (hnext : r.next = none) (f : Frame K L) :
    coroYield s f = pure { s with
      heap := Function.update s.heap .sched (some (r.saved .sched (.yield f)).used)
      coroThisPtr := some .sched
      point := .user f
      trace := s.trace ++ [.yield .sched] ++ [.switch .sched] } := by
  rw [coroYield_run hthis hr, hnext, Option.getD_none]
  refine (longjmp_yield (s := { s with
    heap := Function.update s.heap .sched (some (r.saved .sched (.yield f)))
    trace := s.trace ++ [.yield .sched] }) (Function.update_self ..) rfl).trans ?_
  simp only [Function.update_idem]

/-- A coroutine yields to the next member. -/
theorem coroYield_next {s : State K L M} {c d : CoroPtr} {r q : Coro K L} {l : L}
    (hthis : s.coroThisPtr = some c) (hr : s.heap c = some r) (hnext : r.next = some d)
    (hdc : d ≠ c) (hq : s.heap d = some q) (hres : q.resumes d = some l) (f : Frame K L) :
    coroYield s f = pure { s with
      heap := Function.update (Function.update s.heap c (some (r.saved c (.yield f)))) d
        (some q.used)
      coroThisPtr := some d
      point := .user (.body d l)
      trace := s.trace ++ [.yield c] ++ [.switch d] } := by
  rw [coroYield_run hthis hr, hnext, Option.getD_some]
  exact longjmp_member (s := { s with
    heap := Function.update s.heap c (some (r.saved c (.yield f)))
    trace := s.trace ++ [.yield c] }) ((Function.update_of_ne hdc ..).trans hq) hres

/-- The last member yields to the scheduler, which waits in `coro_sched_wait`. -/
theorem coroYield_last {s : State K L M} {c : CoroPtr} {r q : Coro K L} {k : Option CoroPtr → K}
    (hthis : s.coroThisPtr = some c) (hr : s.heap c = some r) (hnext : r.next = none)
    (hc : CoroPtr.sched ≠ c) (hq : s.heap .sched = some q)
    (hctx : q.ctx = .yieldTo .sched (.wait k)) (f : Frame K L) :
    coroYield s f = pure { s with
      heap := Function.update (Function.update s.heap c (some (r.saved c (.yield f)))) .sched
        (some q.used)
      coroThisPtr := some .sched
      isSchedWaiting := false
      point := .wait k
      trace := s.trace ++ [.yield c] ++ [.switch .sched] } := by
  rw [coroYield_run hthis hr, hnext, Option.getD_none]
  exact longjmp_wait (s := { s with
    heap := Function.update s.heap c (some (r.saved c (.yield f)))
    trace := s.trace ++ [.yield c] }) ((Function.update_of_ne hc ..).trans hq) hctx

/-- `coro_sched_wait` starts a round at the member `d`. -/
theorem coroYieldTo_member {s : State K L M} {d : CoroPtr} {r q : Coro K L} {l : L}
    (hthis : s.coroThisPtr = some .sched) (hr : s.heap .sched = some r) (hd : d ≠ .sched)
    (hq : s.heap d = some q) (hres : q.resumes d = some l) (caller : Caller K L) :
    coroYieldTo s d caller = pure { s with
      heap := Function.update (Function.update s.heap .sched (some (r.saved .sched caller))) d
        (some q.used)
      coroThisPtr := some d
      point := .user (.body d l)
      trace := s.trace ++ [.switch d] } := by
  rw [coroYieldTo_run hthis hr]
  exact longjmp_member (s := { s with
    heap := Function.update s.heap .sched (some (r.saved .sched caller)) })
    ((Function.update_of_ne hd ..).trans hq) hres

/-- The end of a body, while the scheduler waits in `coro_sched_wait`. -/
theorem coroBodyExit_run {s : State K L M} {c : CoroPtr} {r q : Coro K L} {k : Option CoroPtr → K}
    (hr : s.heap c = some r) (hc : CoroPtr.sched ≠ c) (hwait : s.isSchedWaiting = true)
    (hq : s.heap .sched = some q) (hctx : q.ctx = .yieldTo .sched (.wait k)) (v : Int) :
    coroBodyExit s c v = pure { s with
      heap := Function.update
        (Function.update s.heap c (some { r with ret := v, isFinished := true })) .sched
        (some q.used)
      coroThisPtr := some .sched
      isSchedWaiting := false
      point := .wait k
      trace := s.trace ++ [.ret c v] ++ [.switch .sched] } := by
  have hr' : Function.update s.heap c (some { r with ret := v }) c = some { r with ret := v } :=
    Function.update_self ..
  simp only [coroBodyExit, State.modify, State.get, hr, pure_bind, hr', Function.update_idem,
    State.log, hwait, if_true]
  exact longjmp_wait (s := { s with
    heap := Function.update s.heap c (some { r with ret := v, isFinished := true })
    isSchedWaiting := true
    trace := s.trace ++ [.ret c v] }) ((Function.update_of_ne hc ..).trans hq) hctx

/-- The memory of a new coroutine. -/
def Coro.fresh (c : CoroPtr) (func : L) : Coro K L :=
  { ret := 0, func := some func, ctx := .body c, isFinished := false, switchCount := 0,
    next := none, prev := none }

theorem coroNew_run {s : State K L M} (hh : ∀ h, s.coroList = some h → ∃ q, s.heap h = some q)
    (func : L) :
    coroNew s func = pure (.node s.brk, { s with
      heap := link s.heap (.node s.brk) (Coro.fresh (.node s.brk) func) s.coroList
      coroList := some (.node s.brk)
      brk := s.brk + 1
      trace := s.trace ++ [.new (.node s.brk)] }) := by
  let c := CoroPtr.node s.brk
  let fresh : Coro K L :=
    { ret := 0, func := some func, ctx := .unset, isFinished := false, switchCount := 0,
      next := none, prev := none }
  have hr : Function.update s.heap c (some fresh) c = some fresh := Function.update_self ..
  have henter : coroBodyEnter { s with
        brk := s.brk + 1, heap := Function.update s.heap c (some fresh), coroThisPtr := some c }
      = pure { s with
          brk := s.brk + 1
          heap := Function.update s.heap c (some (Coro.fresh c func))
          coroThisPtr := none } := by
    simp only [coroBodyEnter, State.modify, State.get, hr, pure_bind, Function.update_idem]
    rfl
  have hadd := coroListAdd_run (s := { s with
    brk := s.brk + 1, heap := Function.update s.heap c (some (Coro.fresh c func)) }) rfl hh
  simp only [coroNew]
  show (coroBodyEnter { s with
    brk := s.brk + 1, heap := Function.update s.heap c (some fresh), coroThisPtr := some c } >>= _)
      = _
  rw [henter, pure_bind]
  show (coroListAdd { s with
    brk := s.brk + 1, heap := Function.update s.heap c (some (Coro.fresh c func)) } c >>= _) = _
  rw [hadd]
  rfl

/-- The search of `coro_sched_wait` over the rest `xs` of the list. -/
theorem findFinished_run {s : State K L M} {a : Sched K L M} (fuel : Nat) :
    ∀ {before head : Option CoroPtr} {xs : List CoroPtr},
    Linked (fun c => (s.heap c).bind Coro.next) (fun c => (s.heap c).bind Coro.prev) before head xs →
    (∀ c ∈ xs, ∃ r, s.heap c = some r ∧ r.isFinished = a.isFinished c) → xs.length < fuel →
    findFinished s fuel head = pure (xs.find? a.isFinished) := by
  induction fuel with
  | zero => intro _ _ xs _ _ hfuel; omega
  | succ fuel ih =>
      intro before head xs hlink hfin hfuel
      cases xs with
      | nil =>
          have hhead : head = none := hlink
          subst hhead
          rfl
      | cons x xs =>
          obtain ⟨rfl, -, htail⟩ := hlink
          obtain ⟨⟨r, hr, hrfin⟩, hxs⟩ := List.forall_mem_cons.1 hfin
          simp only [findFinished, State.get, hr, pure_bind, hrfin]
          cases hx : a.isFinished x with
          | true => simp [hx]
          | false =>
              simp only [hr, Option.bind_some] at htail
              rw [List.length_cons] at hfuel
              rw [List.find?_cons, hx]
              exact ih htail hxs (by omega)

/-! ## The relation between the two -/

/-- The member whose context is in use. -/
def Sched.runner (a : Sched K L M) : Option CoroPtr :=
  match a.control with
  | .body c _ => some c
  | _ => none

/-- Where the library is when the scheduler's control is as in `a`. -/
def PointRep (s : State K L M) (a : Sched K L M) : Prop :=
  match a.control with
  | .main k => s.point = .user (.main k)
  | .wait k => s.point = .wait k
  | .body c k => s.isSchedWaiting = true ∧
      (∃ l n, a.threads c = some ⟨.ready l, n⟩ ∧ s.point = .user (.body c l)) ∧
      ∃ r, s.heap .sched = some r ∧ r.ctx = .yieldTo .sched (.wait k)
  | .halted => s.point = .halted

/-- The library's state `s` represents the scheduler's state `a`. -/
structure Rep (s : State K L M) (a : Sched K L M) : Prop where
  heap : HeapRep s.heap s.coroList a.members a.threads a.schedCount a.runner
  this : s.coroThisPtr = some a.this
  brk : s.brk = a.brk
  mem : s.mem = a.mem
  trace : s.trace = a.trace
  point : PointRep s a

/-- A computation of the library does what one of the scheduler does. -/
def Sim (x : Lib (State K L M)) (y : Lib (Sched K L M)) : Prop :=
  match y with
  | .error e => x = .error e
  | .ok a => ∃ s, x = .ok s ∧ Rep s a

/-- When the library is in `main`, so is the scheduler. -/
theorem Rep.control_main {s : State K L M} {a : Sched K L M} (h : Rep s a) {k : K}
    (hpoint : s.point = .user (.main k)) : a.control = .main k := by
  have hrep := h.point
  rw [PointRep] at hrep
  cases hctl : a.control with
  | main k' =>
      rw [hctl, hpoint] at hrep
      cases hrep
      rfl
  | wait k' =>
      rw [hctl, hpoint] at hrep
      cases hrep
  | halted =>
      rw [hctl, hpoint] at hrep
      cases hrep
  | body c k' =>
      rw [hctl] at hrep
      obtain ⟨-, ⟨l, n, -, hbody⟩, -⟩ := hrep
      rw [hpoint] at hbody
      cases hbody

theorem Rep.member {s : State K L M} {a : Sched K L M} (h : Rep s a) (ha : a.Inv) {c : CoroPtr}
    (hc : c ∈ a.members) :
    ∃ i r t, c = .node i ∧ s.heap c = some r ∧ a.threads c = some t ∧ r.shadow = t.shadow := by
  obtain ⟨i, rfl, -⟩ := ha.book.created_node (ha.book.member_created hc)
  obtain ⟨t, ht⟩ := ha.book.member_thread hc
  obtain ⟨r, hr, hshadow⟩ := h.heap.get ht
  exact ⟨i, r, t, rfl, hr, ht, hshadow⟩

theorem Sched.Inv.sched_not_member {a : Sched K L M} (ha : a.Inv) : CoroPtr.sched ∉ a.members := by
  intro hs
  obtain ⟨n, hn, -⟩ := ha.book.created_node (ha.book.member_created hs)
  cases hn

theorem look_eq {α : Type} {s : State K L M} {a : Sched K L M} (h : Rep s a)
    {f : Coro K L → α} {g : Thread L → α} {p : Int × Bool × Int → α} (hf : ∀ r, f r = p r.shadow)
    (hg : ∀ t, g t = p t.shadow) : s.look f = a.look (p (0, false, a.schedCount)) g := by
  funext c
  cases c with
  | sched =>
      obtain ⟨r, hr, -, hshadow⟩ := h.heap.sched
      simp [State.look, Sched.look, hr, hf, hshadow]
  | node n =>
      have hnode := h.heap.node n
      cases ht : a.threads (.node n) with
      | none =>
          rw [ht, Option.map_none, Option.map_eq_none_iff] at hnode
          simp [State.look, Sched.look, hnode, ht]
      | some t =>
          obtain ⟨r, hr, hshadow⟩ := h.heap.get ht
          simp [State.look, Sched.look, hr, ht, hf, hg, hshadow]

/-- User code sees the same. -/
theorem view_eq {s : State K L M} {a : Sched K L M} (h : Rep s a) : s.view = a.view := by
  have h1 := look_eq h (f := Coro.ret) (g := Thread.ret) (p := fun q => q.1) (fun _ => rfl)
    (fun _ => rfl)
  have h2 := look_eq h (f := Coro.switchCount) (g := Thread.switchCount) (p := fun q => q.2.2)
    (fun _ => rfl) (fun _ => rfl)
  have h3 := look_eq h (f := Coro.isFinished) (g := Thread.isFinished) (p := fun q => q.2.1)
    (fun _ => rfl) (fun _ => rfl)
  simp only [State.view, Sched.view, h1, h2, h3, h.this]

/-! ## Calls of the main context -/

theorem coroNew_sim {s : State K L M} {a : Sched K L M} (h : Rep s a) (ha : a.Inv) (func : L) :
    ∃ s', coroNew s func = pure (.node a.brk, s') ∧ s'.point = s.point ∧
      s'.isSchedWaiting = s.isSchedWaiting ∧ s'.mem = s.mem ∧ s'.coroThisPtr = s.coroThisPtr ∧
      s'.brk = a.brk + 1 ∧ s'.trace = a.trace ++ [.new (.node a.brk)] ∧
      (∀ r, s.heap .sched = some r → ∃ r', s'.heap .sched = some r' ∧ r'.ctx = r.ctx) ∧
      HeapRep s'.heap s'.coroList (a.create func).members (a.create func).threads a.schedCount
        a.runner := by
  have hsome : ∀ c ∈ a.members, ∃ r, s.heap c = some r := by
    intro c hc
    obtain ⟨i, r, t, -, hr, -⟩ := h.member ha hc
    exact ⟨r, hr⟩
  have hfresh : CoroPtr.node a.brk ∉ a.members :=
    fun hm => ha.book.fresh_not_created (ha.book.member_created hm)
  have hres : (Coro.fresh (.node a.brk) func : Coro K L).resumes (.node a.brk) = some func := by
    simp [Coro.fresh, Coro.resumes]
  obtain ⟨hh, hheap⟩ := h.heap.create hsome hfresh
    (r := Coro.fresh (.node a.brk) func) rfl hres
  refine ⟨{ s with
    heap := link s.heap (.node a.brk) (Coro.fresh (.node a.brk) func) s.coroList
    coroList := some (.node a.brk)
    brk := a.brk + 1
    trace := a.trace ++ [.new (.node a.brk)] }, ?_, rfl, rfl, rfl, rfl, rfl, rfl, ?_, hheap⟩
  · rw [coroNew_run hh, h.brk, h.trace]
  intro r hr
  have hcontent : (link s.heap (.node a.brk) (Coro.fresh (.node a.brk) func) s.coroList .sched).map
      Coro.content = (s.heap .sched).map Coro.content := by
    rw [link, setPrev_content, Function.update_of_ne (by simp)]
  rw [hr, Option.map_some, Option.map_eq_some_iff] at hcontent
  obtain ⟨r', hr', hcontent⟩ := hcontent
  simp only [Coro.content, Prod.mk.injEq] at hcontent
  exact ⟨r', hr', hcontent.2.1⟩

/-- Deleting a coroutine that was waited for, in the library and in the scheduler. -/
theorem coroDelete_sim {s : State K L M} {a : Sched K L M} (h : Rep s a) (ha : a.Inv)
    (c : CoroPtr) :
    (∃ e, coroDelete s c = throw e ∧ a.delete c = throw e) ∨
    ∃ i s' a', c = .node i ∧ .node i ∉ a.members ∧ coroDelete s c = pure s' ∧ a.delete c = pure a' ∧
      s' = { s with heap := Function.update s.heap (.node i) none,
                    trace := a.trace ++ [.delete (.node i)] } ∧
      a' = { a with threads := Function.update a.threads (.node i) none,
                    trace := a.trace ++ [.delete (.node i)] } := by
  by_cases hc : c ∈ waited a.trace ∧ c ∉ deleted a.trace
  · obtain ⟨i, rfl, -⟩ := ha.book.created_node (ha.book.waited_created hc.1)
    refine Or.inr ⟨i, _, _, rfl, fun hm => ha.book.not_waited hm hc.1, ?_, ?_, rfl, rfl⟩
    · rw [coroDelete, h.trace, if_pos hc, State.log]
    · rw [Sched.delete, if_pos hc]
  · refine Or.inl ⟨.user .undefined, ?_, ?_⟩
    · rw [coroDelete, h.trace, if_neg hc]
    · rw [Sched.delete, if_neg hc]

theorem doCall_main_sim {s : State K L M} {a : Sched K L M} (h : Rep s a) (ha : a.Inv) {k : K}
    (hctl : a.control = .main k) (u : Call L K) :
    Sim (doCall s .main u) (a.mainCall (.call u)) := by
  have hthis : s.coroThisPtr = some .sched := by rw [h.this, Sched.this, hctl]
  have hrunner : a.runner = none := by rw [Sched.runner, hctl]
  have hheap := h.heap
  rw [hrunner] at hheap
  cases u with
  | yield x =>
      obtain ⟨r, hr, hnext, hshadow⟩ := hheap.sched
      refine ⟨_, coroYield_self hthis hr hnext (.main x), ?_⟩
      refine ⟨?_, rfl, h.brk, h.mem, by simp [h.trace], rfl⟩
      exact hheap.touchSched ha.sched_not_member hr
        (show (r.saved .sched (.yield (.main x))).used.next = r.next from rfl) rfl
        (saved_shadow hshadow ..)
  | new func x =>
      obtain ⟨s', hrun, -, -, hmem, hthis', hbrk, htrace, -, hheap'⟩ := coroNew_sim h ha func
      rw [hrunner] at hheap'
      refine ⟨{ s' with point := .user (.main (x (.node a.brk))) }, ?_, ?_⟩
      · rw [doCall, hrun]
        rfl
      · exact ⟨hheap', hthis'.trans hthis, hbrk, hmem.trans h.mem, htrace, rfl⟩
  | delete c x =>
      rcases coroDelete_sim h ha c with ⟨e, hs, haa⟩ | ⟨i, s', a', rfl, hi, hs, haa, rfl, rfl⟩
      · show Sim (coroDelete s c >>= _) (a.delete c >>= _)
        rw [hs, haa]
        rfl
      · show Sim (coroDelete s (.node i) >>= _) (a.delete (.node i) >>= _)
        rw [hs, haa]
        exact ⟨_, rfl, hheap.delete hi, hthis, h.brk, h.mem, rfl, rfl⟩

/-! ## Waiting -/

section Wait

variable {s : State K L M} {a : Sched K L M} {k : Option CoroPtr → K}

theorem Rep.wait_heap (h : Rep s a) (hctl : a.control = .wait k) :
    HeapRep s.heap s.coroList a.members a.threads a.schedCount none := by
  have hrunner : a.runner = none := by rw [Sched.runner, hctl]
  exact hrunner ▸ h.heap

theorem Rep.wait_this (h : Rep s a) (hctl : a.control = .wait k) :
    s.coroThisPtr = some .sched := by
  rw [h.this, Sched.this, hctl]

/-- The members' memory says who has finished. -/
theorem Rep.finished (h : Rep s a) (ha : a.Inv) :
    ∀ c ∈ a.members, ∃ r, s.heap c = some r ∧ r.isFinished = a.isFinished c := by
  intro c hc
  obtain ⟨i, r, t, rfl, hr, ht, hshadow⟩ := h.member ha hc
  refine ⟨r, hr, ?_⟩
  rw [Sched.isFinished_eq ht]
  exact congrArg (fun p => p.2.1) hshadow

/-- The search finds the first member that has finished. -/
theorem Rep.find_run (h : Rep s a) (ha : a.Inv) :
    findFinished s (s.brk + 1) s.coroList = pure (a.members.find? a.isFinished) := by
  have hlen : a.members.length < s.brk + 1 := by
    have hperm := ha.book.perm.length_eq
    rw [ha.book.created_eq, List.length_append, List.length_map, List.length_range] at hperm
    rw [h.brk]
    omega
  exact findFinished_run (s.brk + 1) h.heap.list.linked (h.finished ha) hlen

/-- A member that has finished is taken out of the list. -/
theorem wait_finished_sim (h : Rep s a) (ha : a.Inv) (hctl : a.control = .wait k) {d c : CoroPtr}
    (hlist : s.coroList = some d) (hfound : a.members.find? a.isFinished = some c) :
    ∃ s', coroSchedWait s k = pure s' ∧ Rep s' (a.wait k) := by
  have hheap := h.wait_heap hctl
  have hfind := h.find_run ha
  have hc := List.mem_of_find?_eq_some hfound
  have hcfin := List.find?_some hfound
  obtain ⟨i, r, t, rfl, hr, ht, hshadow⟩ := h.member ha hc
  rw [Sched.isFinished_eq ht] at hcfin
  obtain ⟨hp, hn, hheap'⟩ := hheap.take ha.sched_not_member
    (fun c hc => (h.finished ha c hc).imp fun _ hr => hr.1) hc hr
  obtain ⟨r', hr', hshadow', -⟩ := HeapRep.same_content
    (unlink_content (r := r) (.node i)) hr
  have hret : (r'.isFinished, r'.ret) = (true, a.retOf (.node i)) := by
    rw [hshadow] at hshadow'
    simp only [Coro.shadow, Thread.shadow, Prod.mk.injEq] at hshadow'
    rw [hshadow'.1, hshadow'.2.1, hcfin, Sched.retOf, ht]
  unfold coroSchedWait Sched.wait
  rw [hlist] at hfind
  simp only [hlist, hfind, hfound, coroListDelete_run hr hp hn, pure_bind, State.get, hr',
    State.log, hret]
  refine ⟨_, rfl, ?_, h.wait_this hctl, h.brk, h.mem, by simp [h.trace], rfl⟩
  rw [hlist] at hheap'
  exact hheap'

/-- When no member has finished, the scheduler switches to the first one. -/
theorem wait_switch_sim (h : Rep s a) (ha : a.Inv) (hctl : a.control = .wait k) {d : CoroPtr}
    (hlist : s.coroList = some d) (hfound : a.members.find? a.isFinished = none) :
    ∃ s', coroSchedWait s k = pure s' ∧ Rep s' (a.wait k) := by
  have hheap := h.wait_heap hctl
  have hfind := h.find_run ha
  obtain ⟨rest, hrest⟩ : ∃ rest, a.members = d :: rest := by
    have hhead := hheap.list.linked.head_eq
    rw [hlist] at hhead
    exact List.head?_eq_some_iff.1 hhead.symm
  have hd : d ∈ a.members := by rw [hrest]; exact List.mem_cons_self ..
  obtain ⟨i, r, t, rfl, hr, ht, hshadow⟩ := h.member ha hd
  have hdfin : t.isFinished = false := by
    rw [← Sched.isFinished_eq ht]
    exact Bool.eq_false_iff.2 (List.find?_eq_none.1 hfound _ hd)
  obtain ⟨status, n⟩ := t
  cases status with
  | finished v => cases hdfin
  | ready l =>
      obtain ⟨q, hq, hqres⟩ := hheap.ready _ hd (by simp) l n ht
      obtain ⟨rs, hrs, -, hrshadow⟩ := hheap.sched
      have htouch := hheap.touchSched ha.sched_not_member hrs
        (show (rs.saved .sched (.wait k)).next = rs.next from rfl) rfl
        (show (rs.saved .sched (.wait k)).shadow = _ from saved_shadow hrshadow .sched (.wait k))
      have hq' : Function.update s.heap .sched (some (rs.saved .sched (.wait k))) (.node i)
          = some q := (Function.update_of_ne (by simp) ..).trans hq
      have hsched : Function.update (Function.update s.heap .sched
          (some (rs.saved .sched (.wait k)))) (.node i) (some q.used) .sched
          = some (rs.saved .sched (.wait k)) := by
        rw [Function.update_of_ne (by simp), Function.update_self]
      unfold coroSchedWait Sched.wait
      rw [hlist] at hfind
      simp only [hlist, hfind, hfound, pure_bind]
      simp only [hrest]
      refine ⟨_, coroYieldTo_member
        (s := { s with coroList := some (.node i), isSchedWaiting := true })
        (h.wait_this hctl) hrs (by simp) hq hqres (.wait k), ?_⟩
      refine ⟨?_, rfl, h.brk, h.mem, by simp [h.trace], rfl, ⟨l, n, ht, rfl⟩,
        rs.saved .sched (.wait k), hsched, rfl⟩
      rw [hlist, hrest] at htouch
      exact htouch.enter hq'

theorem wait_sim (h : Rep s a) (ha : a.Inv) (hctl : a.control = .wait k) :
    ∃ s', coroSchedWait s k = pure s' ∧ Rep s' (a.wait k) := by
  have hheap := h.wait_heap hctl
  have hhead := hheap.list.linked.head_eq
  cases hlist : s.coroList with
  | none =>
      rw [hlist] at hhead
      have hnil : a.members = [] := List.head?_eq_none_iff.1 hhead.symm
      unfold coroSchedWait Sched.wait
      simp only [hlist, hnil, List.find?_nil]
      refine ⟨_, rfl, ?_, h.wait_this hctl, h.brk, h.mem, by simp [State.log, h.trace], rfl⟩
      rw [hlist, hnil] at hheap
      exact hheap
  | some d =>
      cases hfound : a.members.find? a.isFinished with
      | some c => exact wait_finished_sim h ha hctl hlist hfound
      | none => exact wait_switch_sim h ha hctl hlist hfound

end Wait

/-! ## Calls of a coroutine body -/

section Body

variable {s : State K L M} {a : Sched K L M} {i : Nat} {k : Option CoroPtr → K} {l : L} {n : Int}

theorem yield_sim (h : Rep s a) (ha : a.Inv) (hctl : a.control = .body (.node i) k)
    (ht : a.threads (.node i) = some ⟨.ready l, n⟩) (x : L) :
    Sim (doCall s (.body (.node i)) (.yield x))
      (a.bodyCall (.node i) n k (.call (.yield x))) := by
  obtain ⟨hmem, hall⟩ := ha.running _ _ hctl
  have hthis : s.coroThisPtr = some (.node i) := by rw [h.this, Sched.this, hctl]
  have hheap := h.heap
  rw [show a.runner = some (.node i) by rw [Sched.runner, hctl]] at hheap
  have hpoint := h.point
  rw [PointRep, hctl] at hpoint
  obtain ⟨hwait, -, q, hq, hqctx⟩ := hpoint
  obtain ⟨r, hr, hshadow⟩ := hheap.get ht
  have hne : CoroPtr.sched ≠ .node i := by simp
  have hnext : r.next = succ (.node i) a.members := by
    rw [← hheap.list.linked.next_eq hmem]
    simp [hr]
  have hleave := hheap.leave hr (r.saved (.node i) (.yield (.body (.node i) x)))
    ⟨.ready x, n + 1⟩ rfl rfl (saved_shadow hshadow (.node i) (.yield (.body (.node i) x)))
    (by
      intro l' n' hl
      obtain ⟨hl, -⟩ := Thread.mk.inj hl
      obtain rfl := Status.ready.inj hl
      simp [Coro.resumes, Coro.saved])
  rw [doCall, Sched.bodyCall]
  cases hsucc : succ (.node i) a.members with
  | none =>
      obtain ⟨q', hq', hqnext, hqshadow⟩ := hleave.sched
      rw [Function.update_of_ne hne, hq, Option.some.injEq] at hq'
      subst hq'
      refine ⟨_, coroYield_last hthis hr (hnext.trans hsucc) hne hq hqctx _, ?_⟩
      refine ⟨?_, rfl, h.brk, h.mem, ?_, rfl⟩
      · exact hleave.touchSched ha.sched_not_member
          ((Function.update_of_ne hne ..).trans hq) (show q.used.next = q.next from rfl) rfl hqshadow
      · simp [Sched.switchTo, Sched.log, Sched.setThread, h.trace]
  | some d =>
      have hd : d ∈ a.members := succ_mem hsucc
      have hdc : d ≠ .node i := hheap.list.next_ne hmem ((hheap.list.linked.next_eq hmem).trans hsucc)
      obtain ⟨j, qd, t, rfl, hqd, htd, -⟩ := h.member ha hd
      have hfin := hall _ hd
      rw [Sched.isFinished_eq htd] at hfin
      obtain ⟨status, n'⟩ := t
      cases status with
      | finished v => cases hfin
      | ready l' =>
          obtain ⟨qd', hqd', hres⟩ := hheap.ready _ hd
            (fun he => hdc (Option.some.inj he).symm) l' n' htd
          refine ⟨_, coroYield_next hthis hr (hnext.trans hsucc) hdc hqd' hres _, ?_⟩
          refine ⟨?_, rfl, h.brk, h.mem, ?_, hwait, ⟨l', n', ?_, rfl⟩, q, ?_, hqctx⟩
          · exact hleave.enter ((Function.update_of_ne hdc ..).trans hqd')
          · simp [Sched.switchTo, Sched.log, Sched.setThread, h.trace]
          · exact (Function.update_of_ne hdc ..).trans htd
          · have hnj : CoroPtr.sched ≠ .node j := by simp
            have hsched : Function.update (Function.update s.heap (.node i)
                (some (r.saved (.node i) (.yield (.body (.node i) x))))) (.node j) (some qd'.used)
                .sched = some q := by
              rw [Function.update_of_ne hnj, Function.update_of_ne hne, hq]
            exact hsched

/-- While a body runs, the scheduler waits in `coro_sched_wait`. -/
theorem PointRep.keep {s' : State K L M} {a' : Sched K L M} {x : L} {m : Int}
    (hpoint : PointRep s a) (hctl : a.control = .body (.node i) k)
    (hctl' : a'.control = .body (.node i) k) (hwait : s'.isSchedWaiting = s.isSchedWaiting)
    (ht : a'.threads (.node i) = some ⟨.ready x, m⟩)
    (hp : s'.point = .user (.body (.node i) x))
    (hsched : ∀ r, s.heap .sched = some r → ∃ r', s'.heap .sched = some r' ∧ r'.ctx = r.ctx) :
    PointRep s' a' := by
  rw [PointRep, hctl] at hpoint
  obtain ⟨hw, -, q, hq, hqctx⟩ := hpoint
  obtain ⟨q', hq', hctx⟩ := hsched q hq
  rw [PointRep, hctl']
  exact ⟨hwait.trans hw, ⟨x, m, ht, hp⟩, q', hq', hctx.trans hqctx⟩

theorem new_sim (h : Rep s a) (ha : a.Inv) (hctl : a.control = .body (.node i) k)
    (ht : a.threads (.node i) = some ⟨.ready l, n⟩) (func : L) (x : CoroPtr → L) :
    Sim (doCall s (.body (.node i)) (.new func x))
      (a.bodyCall (.node i) n k (.call (.new func x))) := by
  obtain ⟨hmem, -⟩ := ha.running _ _ hctl
  have hthis : s.coroThisPtr = some (.node i) := by rw [h.this, Sched.this, hctl]
  have hne : CoroPtr.node i ≠ .node a.brk :=
    fun he => ha.book.fresh_not_created (he ▸ ha.book.member_created hmem)
  obtain ⟨s', hrun, -, hwait, hmem', hthis', hbrk, htrace, hsched, hheap⟩ := coroNew_sim h ha func
  rw [show a.runner = some (.node i) by rw [Sched.runner, hctl]] at hheap
  have hrunner : ((a.create func).setThread (.node i) ⟨.ready (x (.node a.brk)), n⟩).runner
      = some (.node i) := by
    simp [Sched.runner, Sched.setThread, Sched.create, hctl]
  refine ⟨{ s' with point := .user (.body (.node i) (x (.node a.brk))) }, ?_, ?_⟩
  · rw [doCall, hrun]
    rfl
  · refine ⟨?_, ?_, hbrk, hmem'.trans h.mem, htrace, ?_⟩
    · rw [hrunner]
      exact hheap.setReady (l := l) ((Function.update_of_ne hne ..).trans ht)
    · refine hthis'.trans (hthis.trans ?_)
      simp [Sched.this, Sched.setThread, Sched.create, hctl]
    · exact h.point.keep (x := x (.node a.brk)) hctl hctl hwait (Function.update_self ..) rfl hsched

theorem delete_sim (h : Rep s a) (ha : a.Inv) (hctl : a.control = .body (.node i) k)
    (ht : a.threads (.node i) = some ⟨.ready l, n⟩) (c : CoroPtr) (x : L) :
    Sim (doCall s (.body (.node i)) (.delete c x))
      (a.bodyCall (.node i) n k (.call (.delete c x))) := by
  obtain ⟨hmem, -⟩ := ha.running _ _ hctl
  have hthis : s.coroThisPtr = some (.node i) := by rw [h.this, Sched.this, hctl]
  have hheap := h.heap
  rw [show a.runner = some (.node i) by rw [Sched.runner, hctl]] at hheap
  rcases coroDelete_sim h ha c with ⟨e, hs, haa⟩ | ⟨j, s', a', rfl, hj, hs, haa, rfl, rfl⟩
  · show Sim (coroDelete s c >>= _) (a.delete c >>= _)
    rw [hs, haa]
    rfl
  · show Sim (coroDelete s (.node j) >>= _) (a.delete (.node j) >>= _)
    rw [hs, haa]
    have hij : CoroPtr.node i ≠ .node j := fun he => hj (he ▸ hmem)
    have hne : CoroPtr.sched ≠ .node j := by simp
    refine ⟨_, rfl, ?_, ?_, h.brk, h.mem, rfl, ?_⟩
    · rw [Sched.runner, Sched.setThread]
      simp only [hctl]
      exact (hheap.delete hj).setReady (l := l) ((Function.update_of_ne hij ..).trans ht)
    · simp [Sched.this, Sched.setThread, hctl, hthis]
    · refine h.point.keep (x := x) (m := n) hctl hctl rfl (Function.update_self ..) rfl ?_
      intro r hr
      have hsched : Function.update s.heap (.node j) none .sched = some r := by
        rw [Function.update_of_ne hne, hr]
      exact ⟨r, hsched, rfl⟩

theorem ret_sim (h : Rep s a) (ha : a.Inv) (hctl : a.control = .body (.node i) k)
    (ht : a.threads (.node i) = some ⟨.ready l, n⟩) (v : Int) :
    Sim (coroBodyExit s (.node i) v) (a.bodyCall (.node i) n k (.ret v)) := by
  have hheap := h.heap
  rw [show a.runner = some (.node i) by rw [Sched.runner, hctl]] at hheap
  have hpoint := h.point
  rw [PointRep, hctl] at hpoint
  obtain ⟨hwait, -, q, hq, hqctx⟩ := hpoint
  obtain ⟨r, hr, hshadow⟩ := hheap.get ht
  have hne : CoroPtr.sched ≠ .node i := by simp
  have hcount : r.switchCount = n := congrArg (fun p => p.2.2) hshadow
  have hleave := hheap.leave hr { r with ret := v, isFinished := true } ⟨.finished v, n⟩ rfl rfl
    (by simp [Coro.shadow, Thread.shadow, Thread.ret, Thread.isFinished, hcount])
    (fun l' n' hl => by cases hl)
  obtain ⟨q', hq', -, hqshadow⟩ := hleave.sched
  rw [Function.update_of_ne hne, hq, Option.some.injEq] at hq'
  subst hq'
  refine ⟨_, coroBodyExit_run hr hne hwait hq hqctx v, ?_⟩
  refine ⟨?_, rfl, h.brk, h.mem, ?_, rfl⟩
  · exact hleave.touchSched ha.sched_not_member
      ((Function.update_of_ne hne ..).trans hq) (show q.used.next = q.next from rfl) rfl hqshadow
  · simp [Sched.switchTo, Sched.log, Sched.setThread, h.trace]

end Body

/-! ## Steps -/

/-- A step of the library does what one of the scheduler does. -/
def SimStep (x : Lib (Option (State K L M))) (y : Lib (Option (Sched K L M))) : Prop :=
  match y with
  | .error e => x = .error e
  | .ok none => x = .ok none
  | .ok (some a) => ∃ s, x = .ok (some s) ∧ Rep s a

theorem Sim.some {x : Lib (State K L M)} {y : Lib (Sched K L M)} (h : Sim x y) :
    SimStep (x >>= fun s => pure (some s)) (y >>= fun a => pure (some a)) := by
  cases y with
  | error e =>
      rw [show x = .error e from h]
      rfl
  | ok a =>
      obtain ⟨s, rfl, hs⟩ := h
      exact ⟨s, rfl, hs⟩

/-- User code has written to its memory. -/
theorem Rep.setMem {s : State K L M} {a : Sched K L M} (h : Rep s a) {p : Point K L}
    {ctl : Control K L} (hp : s.point = p) (hctl : a.control = ctl) (mem : M) :
    Rep { s with point := p, mem := mem } { a with control := ctl, mem := mem } := by
  subst hp hctl
  exact ⟨h.heap, h.this, h.brk, rfl, h.trace, h.point⟩

theorem Sched.Inv.setMem {a : Sched K L M} (ha : a.Inv) {ctl : Control K L}
    (hctl : a.control = ctl) (mem : M) : Sched.Inv { a with control := ctl, mem := mem } := by
  subst hctl
  exact ⟨ha.book, ha.running⟩

theorem step_sim (P : Program K L M) {s : State K L M} {a : Sched K L M} (h : Rep s a)
    (ha : a.Inv) : SimStep (step P s) (Sched.step P a) := by
  have hpoint := h.point
  rw [PointRep] at hpoint
  unfold step Sched.step
  cases hctl : a.control with
  | halted =>
      rw [hctl] at hpoint
      simp only [hpoint]
      rfl
  | wait k =>
      rw [hctl] at hpoint
      simp only at hpoint
      obtain ⟨s', hs', hrep⟩ := wait_sim h ha hctl
      simp only [hpoint, hs']
      exact ⟨s', rfl, hrep⟩
  | main k =>
      rw [hctl] at hpoint
      simp only at hpoint
      simp only [hpoint, view_eq h, h.mem]
      rcases P.main a.view k a.mem with e | ⟨call, mem⟩
      · rfl
      · have hmem := h.setMem hpoint hctl mem
        cases call with
        | call u => exact (doCall_main_sim hmem (ha.setMem hctl mem) rfl u).some
        | wait k' => exact ⟨_, rfl, hmem.heap, hmem.this, hmem.brk, rfl, hmem.trace, rfl⟩
        | done => exact ⟨_, rfl, hmem.heap, hmem.this, hmem.brk, rfl, hmem.trace, rfl⟩
  | body c k =>
      rw [hctl] at hpoint
      obtain ⟨-, ⟨l, n, ht, hpoint⟩, -⟩ := hpoint
      obtain ⟨i, -, -, rfl, -⟩ := h.member ha (ha.running c k hctl).1
      simp only [hpoint, ht, view_eq h, h.mem]
      rcases P.body a.view l a.mem with e | ⟨call, mem⟩
      · rfl
      · have hmem := h.setMem hpoint hctl mem
        have hinv := ha.setMem hctl mem
        cases call with
        | call u =>
            cases u with
            | yield x => exact (yield_sim hmem hinv rfl ht x).some
            | new func x => exact (new_sim hmem hinv rfl ht func x).some
            | delete d x => exact (delete_sim hmem hinv rfl ht d x).some
        | ret v => exact (ret_sim hmem hinv rfl ht v).some

theorem rep_init (k : K) (mem : M) : Rep (init k mem : State K L M) (Sched.init k mem) := by
  refine ⟨⟨⟨rfl, List.nodup_nil⟩, ⟨_, rfl, rfl, rfl⟩, fun n => rfl, ?_⟩, rfl, rfl, rfl, rfl, rfl⟩
  intro c hc
  cases hc

/-- **The library refines the scheduler**: they go on, stop and halt together. -/
theorem library_simulates (P : Program K L M) :
    Run.Simulation (step P) (Sched.step P) (fun s a => Rep s a ∧ a.Inv) where
  error := by
    rintro s a e ⟨h, ha⟩ herr
    have hsim := step_sim P h ha
    rw [herr] at hsim
    exact hsim
  halt := by
    rintro s a ⟨h, ha⟩ hhalt
    have hsim := step_sim P h ha
    rw [hhalt] at hsim
    exact hsim
  goes := by
    rintro s a a' ⟨h, ha⟩ hgoes
    have hsim := step_sim P h ha
    rw [show Sched.step P a = .ok (some a') from hgoes] at hsim
    obtain ⟨s', hs', hrep⟩ := hsim
    exact ⟨s', hs', hrep, Sched.step_inv ha hgoes⟩

/-- Every state of a run represents a state of the scheduler's run. -/
theorem Reaches.sched {P : Program K L M} {k : K} {mem : M} {s : State K L M}
    (h : Reaches P (init k mem) s) :
    ∃ a, Run.Reaches (Sched.step P) (Sched.init k mem) a ∧ Rep s a ∧ a.Inv :=
  (library_simulates P).reaches ⟨rep_init k mem, Sched.inv_init k mem⟩ h

/-- Every state of the scheduler's run is represented by one of the library's run. -/
theorem Reaches.of_sched {P : Program K L M} {k : K} {mem : M} {a : Sched K L M}
    (h : Run.Reaches (Sched.step P) (Sched.init k mem) a) :
    ∃ s, Reaches P (init k mem) s ∧ Rep s a ∧ a.Inv :=
  (library_simulates P).reaches_of ⟨rep_init k mem, Sched.inv_init k mem⟩ h

end SysProg.Libcoro
