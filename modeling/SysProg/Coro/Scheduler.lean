import SysProg.Coro.Libcoro
import SysProg.Lib.LinkedList

set_option autoImplicit false

/-! # The scheduler without pointers

What the coroutine library is for: a list of members, each ready to run in some local state or
finished, run round by round from the first to the last. `SysProg.Coro.Simulation` shows that the
library's lists, flags and jump buffers implement it. -/

namespace SysProg.Libcoro

open LinkedList

/-- Whether a coroutine is ready to go on, in a local state, or finished, with its value. -/
inductive Status (L : Type) where
  | ready (l : L)
  | finished (v : Int)

structure Thread (L : Type) where
  status : Status L
  switchCount : Int

def Thread.isFinished {L : Type} (t : Thread L) : Bool :=
  match t.status with
  | .ready _ => false
  | .finished _ => true

def Thread.ret {L : Type} (t : Thread L) : Int :=
  match t.status with
  | .ready _ => 0
  | .finished v => v

/-- Who is in control. -/
inductive Control (K L : Type) where
  | main (k : K)
  /-- `coro_sched_wait`, before a round. -/
  | wait (k : Option CoroPtr → K)
  /-- The body of `c`, in a round of `coro_sched_wait`. -/
  | body (c : CoroPtr) (k : Option CoroPtr → K)
  | halted

structure Sched (K L M : Type) where
  members : List CoroPtr
  threads : CoroPtr → Option (Thread L)
  /-- How often the scheduler itself has switched. -/
  schedCount : Int
  brk : Nat
  control : Control K L
  mem : M
  trace : List Event

variable {K L M : Type}

namespace Sched

def log (a : Sched K L M) (es : List Event) : Sched K L M := { a with trace := a.trace ++ es }

def setThread (a : Sched K L M) (c : CoroPtr) (t : Thread L) : Sched K L M :=
  { a with threads := Function.update a.threads c (some t) }

/-- Whose code runs: `coro_this_ptr`. -/
def this (a : Sched K L M) : CoroPtr :=
  match a.control with
  | .body c _ => c
  | _ => .sched

def look {α : Type} (a : Sched K L M) (sched : α) (f : Thread L → α) : CoroPtr → C α
  | .sched => pure sched
  | .node n =>
    match a.threads (.node n) with
    | some t => pure (f t)
    | none => throw .undefined

def view (a : Sched K L M) : View :=
  { coroThis := some a.this, coroStatus := a.look 0 Thread.ret,
    coroSwitchCount := a.look a.schedCount Thread.switchCount,
    coroIsFinished := a.look false Thread.isFinished }

/-- A new member, in front of the others. -/
def create (a : Sched K L M) (func : L) : Sched K L M :=
  { a with
    members := .node a.brk :: a.members
    threads := Function.update a.threads (.node a.brk) (some ⟨.ready func, 0⟩)
    brk := a.brk + 1
    trace := a.trace ++ [.new (.node a.brk)] }

/-- A coroutine that was waited for and not deleted is deleted. -/
def delete (a : Sched K L M) (c : CoroPtr) : Lib (Sched K L M) :=
  if c ∈ waited a.trace ∧ c ∉ deleted a.trace then
    pure { a with
      threads := Function.update a.threads c none
      trace := a.trace ++ [.delete c] }
  else throw (.user .undefined)

/-- Control passes to the next member, or to the scheduler after the last one. -/
def switchTo (a : Sched K L M) (k : Option CoroPtr → K) : Option CoroPtr → Sched K L M
  | some d => { a with control := .body d k, trace := a.trace ++ [.switch d] }
  | none => { a with control := .wait k, trace := a.trace ++ [.switch .sched] }

def isFinished (a : Sched K L M) (c : CoroPtr) : Bool :=
  match a.threads c with
  | some t => t.isFinished
  | none => false

def retOf (a : Sched K L M) (c : CoroPtr) : Int :=
  match a.threads c with
  | some t => t.ret
  | none => 0

/-- `coro_sched_wait` returns the first finished member, or NULL when there are no members, or
    starts a round. -/
def wait (a : Sched K L M) (k : Option CoroPtr → K) : Sched K L M :=
  match a.members.find? a.isFinished with
  | some c =>
    { a with
      members := a.members.erase c
      control := .main (k (some c))
      trace := a.trace ++ [.wait (some (c, true, a.retOf c))] }
  | none =>
    match a.members with
    | [] => { a with control := .main (k none), trace := a.trace ++ [.wait none] }
    | c :: _ =>
      { a with
        schedCount := a.schedCount + 1
        control := .body c k
        trace := a.trace ++ [.switch c] }

def mainCall (a : Sched K L M) : MainCall K L → Lib (Sched K L M)
  | .call (.yield x) => pure
      { a with
        schedCount := a.schedCount + 1
        control := .main x
        trace := a.trace ++ [.yield .sched, .switch .sched] }
  | .call (.new func x) => pure { a.create func with control := .main (x (.node a.brk)) }
  | .call (.delete c x) => do
    let a ← a.delete c
    pure { a with control := .main x }
  | .wait k => pure { a with control := .wait k }
  | .done => pure { a with control := .halted }

/-- A library call of the member `c`, which has switched `n` times. -/
def bodyCall (a : Sched K L M) (c : CoroPtr) (n : Int) (k : Option CoroPtr → K) :
    BodyCall L → Lib (Sched K L M)
  | .call (.yield x) => pure
      (((a.setThread c ⟨.ready x, n + 1⟩).log [.yield c]).switchTo k (succ c a.members))
  | .call (.new func x) => pure ((a.create func).setThread c ⟨.ready (x (.node a.brk)), n⟩)
  | .call (.delete d x) => do
    let a ← a.delete d
    pure (a.setThread c ⟨.ready x, n⟩)
  | .ret v => pure (((a.setThread c ⟨.finished v, n⟩).log [.ret c v]).switchTo k none)

def step (P : Program K L M) (a : Sched K L M) : Lib (Option (Sched K L M)) :=
  match a.control with
  | .halted => pure none
  | .wait k => pure (some (a.wait k))
  | .main k => do
    let (call, mem) ← runUser (P.main a.view k a.mem)
    let a ← mainCall { a with mem := mem } call
    pure (some a)
  | .body c k =>
    match a.threads c with
    | some ⟨.ready l, n⟩ => do
      let (call, mem) ← runUser (P.body a.view l a.mem)
      let a ← bodyCall { a with mem := mem } c n k call
      pure (some a)
    | _ => throw .fault

def init (k : K) (mem : M) : Sched K L M :=
  { members := [], threads := fun _ => none, schedCount := 0, brk := 0, control := .main k,
    mem := mem, trace := [] }

/-! ## The books of the scheduler -/

/-- How the members and the threads agree with the events so far. -/
structure Book (members : List CoroPtr) (threads : CoroPtr → Option (Thread L)) (brk : Nat)
    (tr : List Event) : Prop where
  created_eq : created tr = (List.range brk).map .node
  /-- Every coroutine created is a member or was returned by `coro_sched_wait`, and only one of
      them. -/
  perm : (waited tr ++ members).Perm (created tr)
  thread_some : ∀ c ∈ created tr, c ∉ deleted tr → ∃ t, threads c = some t
  thread_none : ∀ c, c ∉ created tr ∨ c ∈ deleted tr → threads c = none
  deleted_waited : ∀ c ∈ deleted tr, c ∈ waited tr
  deleted_nodup : (deleted tr).Nodup
  finished_ret : ∀ c v n, threads c = some ⟨.finished v, n⟩ → (c, v) ∈ returns tr
  returns_nodup : ((returns tr).map Prod.fst).Nodup
  returns_finished : ∀ p ∈ returns tr, p.1 ∈ waited tr ∨
    (p.1 ∈ members ∧ ∃ t, threads p.1 = some t ∧ t.isFinished = true)
  waits_ret : ∀ c f v, some (c, f, v) ∈ waits tr → f = true ∧ (c, v) ∈ returns tr

namespace Book

variable {members : List CoroPtr} {threads : CoroPtr → Option (Thread L)} {brk : Nat}
  {tr : List Event}

theorem nodup (h : Book members threads brk tr) : (waited tr ++ members).Nodup := by
  rw [h.perm.nodup_iff, h.created_eq]
  exact List.nodup_range.map (fun _ _ heq => CoroPtr.node.inj heq)

theorem not_waited (h : Book members threads brk tr) {c : CoroPtr} (hc : c ∈ members) :
    c ∉ waited tr :=
  fun hw => (List.nodup_append.1 h.nodup).2.2 c hw c hc rfl

theorem member_created (h : Book members threads brk tr) {c : CoroPtr} (hc : c ∈ members) :
    c ∈ created tr := h.perm.subset (List.mem_append_right _ hc)

theorem waited_created (h : Book members threads brk tr) {c : CoroPtr} (hc : c ∈ waited tr) :
    c ∈ created tr := h.perm.subset (List.mem_append_left _ hc)

theorem member_thread (h : Book members threads brk tr) {c : CoroPtr} (hc : c ∈ members) :
    ∃ t, threads c = some t :=
  h.thread_some c (h.member_created hc) (fun hd => h.not_waited hc (h.deleted_waited c hd))

theorem fresh_not_created (h : Book members threads brk tr) : CoroPtr.node brk ∉ created tr := by
  rw [h.created_eq]
  simp

theorem created_node (h : Book members threads brk tr) {c : CoroPtr} (hc : c ∈ created tr) :
    ∃ n, c = .node n ∧ n < brk := by
  rw [h.created_eq, List.mem_map] at hc
  obtain ⟨n, hn, rfl⟩ := hc
  exact ⟨n, rfl, List.mem_range.1 hn⟩

/-- Yields, switches and NULL results of `coro_sched_wait` change no book. -/
theorem neutral (h : Book members threads brk tr) {es : List Event} (hc : created es = [])
    (hr : returns es = []) (hws : waits es = [] ∨ waits es = [none]) (hw : waited es = [])
    (hd : deleted es = []) : Book members threads brk (tr ++ es) := by
  obtain ⟨h1, h2, h3, h4, h5, h6, h7, h8, h9, h10⟩ := h
  constructor <;> simp only [created_append, waited_append, deleted_append, returns_append,
    waits_append, hc, hr, hw, hd, List.append_nil]
  case waits_ret =>
    intro c f v hmem
    rcases List.mem_append.1 hmem with hmem | hmem
    · exact h10 c f v hmem
    · rcases hws with hws | hws <;> simp [hws] at hmem
  all_goals assumption

/-- A new coroutine. -/
theorem create (h : Book members threads brk tr) (func : L) :
    Book (.node brk :: members) (Function.update threads (.node brk) (some ⟨.ready func, 0⟩))
      (brk + 1) (tr ++ [.new (.node brk)]) := by
  have hfresh := h.fresh_not_created
  have hnd : CoroPtr.node brk ∉ deleted tr :=
    fun hd => hfresh (h.waited_created (h.deleted_waited _ hd))
  have hne : ∀ c ∈ created tr, c ≠ .node brk := fun c hc he => hfresh (he ▸ hc)
  have hcreated : created (tr ++ [.new (.node brk)]) = created tr ++ [.node brk] := by
    simp [created]
  have hwaited : waited (tr ++ [.new (.node brk)]) = waited tr := by simp [waited]
  have hdeleted : deleted (tr ++ [.new (.node brk)]) = deleted tr := by simp [deleted]
  have hreturns : returns (tr ++ [.new (.node brk)]) = returns tr := by simp [returns]
  have hwaits : waits (tr ++ [.new (.node brk)]) = waits tr := by simp [waits]
  constructor <;> simp only [hcreated, hwaited, hdeleted, hreturns, hwaits]
  case created_eq => rw [h.created_eq, List.range_succ, List.map_append, List.map_singleton]
  case perm =>
    refine List.perm_middle.trans ?_
    exact ((h.perm.cons (.node brk)).trans (List.perm_append_singleton _ _).symm)
  case thread_some =>
    intro c hc hd
    by_cases hcb : c = .node brk
    · exact ⟨_, by rw [hcb, Function.update_self]⟩
    · rw [Function.update_of_ne hcb]
      rcases List.mem_append.1 hc with hc | hc
      · exact h.thread_some c hc hd
      · exact absurd (List.mem_singleton.1 hc) hcb
  case thread_none =>
    intro c hc
    have hcb : c ≠ .node brk := by
      rintro rfl
      rcases hc with hc | hc
      · exact hc (List.mem_append_right _ (List.mem_singleton.2 rfl))
      · exact hnd hc
    rw [Function.update_of_ne hcb]
    refine h.thread_none c (hc.imp_left fun hc hmem => hc (List.mem_append_left _ hmem))
  case deleted_waited => exact h.deleted_waited
  case deleted_nodup => exact h.deleted_nodup
  case finished_ret =>
    intro c v n ht
    by_cases hcb : c = .node brk
    · rw [hcb, Function.update_self] at ht
      simp at ht
    · rw [Function.update_of_ne hcb] at ht
      exact h.finished_ret c v n ht
  case returns_nodup => exact h.returns_nodup
  case returns_finished =>
    intro p hp
    refine (h.returns_finished p hp).imp_right ?_
    rintro ⟨hmem, ht⟩
    rw [Function.update_of_ne (hne _ (h.member_created hmem))]
    exact ⟨List.mem_cons_of_mem _ hmem, ht⟩
  case waits_ret => exact h.waits_ret

/-- Deleting a coroutine that was waited for. -/
theorem delete (h : Book members threads brk tr) {c : CoroPtr} (hc : c ∈ waited tr)
    (hnd : c ∉ deleted tr) :
    Book members (Function.update threads c none) brk (tr ++ [.delete c]) := by
  have hcreated : created (tr ++ [.delete c]) = created tr := by simp [created]
  have hwaited : waited (tr ++ [.delete c]) = waited tr := by simp [waited]
  have hdeleted : deleted (tr ++ [.delete c]) = deleted tr ++ [c] := by simp [deleted]
  have hreturns : returns (tr ++ [.delete c]) = returns tr := by simp [returns]
  have hwaits : waits (tr ++ [.delete c]) = waits tr := by simp [waits]
  constructor <;> simp only [hcreated, hwaited, hdeleted, hreturns, hwaits]
  case created_eq => exact h.created_eq
  case perm => exact h.perm
  case thread_some =>
    intro d hd hdel
    simp only [List.mem_append, List.mem_singleton, not_or] at hdel
    rw [Function.update_of_ne hdel.2]
    exact h.thread_some d hd hdel.1
  case thread_none =>
    intro d hd
    by_cases hdc : d = c
    · rw [hdc, Function.update_self]
    · rw [Function.update_of_ne hdc]
      refine h.thread_none d (hd.imp_right fun hd => ?_)
      simpa [hdc] using hd
  case deleted_waited =>
    intro d hd
    rcases List.mem_append.1 hd with hd | hd
    · exact h.deleted_waited d hd
    · rw [List.mem_singleton.1 hd]
      exact hc
  case deleted_nodup =>
    refine List.nodup_append.2 ⟨h.deleted_nodup, List.nodup_singleton _, ?_⟩
    intro d hd e he hde
    rw [hde, List.mem_singleton.1 he] at hd
    exact hnd hd
  case finished_ret =>
    intro d v n ht
    by_cases hdc : d = c
    · rw [hdc, Function.update_self] at ht
      cases ht
    · rw [Function.update_of_ne hdc] at ht
      exact h.finished_ret d v n ht
  case returns_nodup => exact h.returns_nodup
  case returns_finished =>
    intro p hp
    refine (h.returns_finished p hp).imp_right ?_
    rintro ⟨hmem, ht⟩
    have hpc : p.1 ≠ c := fun he => h.not_waited hmem (he ▸ hc)
    rw [Function.update_of_ne hpc]
    exact ⟨hmem, ht⟩
  case waits_ret => exact h.waits_ret

/-- A member goes on in another local state. -/
theorem setReady (h : Book members threads brk tr) {c : CoroPtr} (hc : c ∈ members) {t : Thread L}
    (ht : threads c = some t) (hfin : t.isFinished = false) (l : L) (n : Int) :
    Book members (Function.update threads c (some ⟨.ready l, n⟩)) brk tr := by
  have hset : ∀ d v m, Function.update threads c (some ⟨.ready l, n⟩) d = some ⟨.finished v, m⟩ →
      threads d = some ⟨.finished v, m⟩ := by
    intro d v m hd
    by_cases hdc : d = c
    · rw [hdc, Function.update_self] at hd
      simp at hd
    · rwa [Function.update_of_ne hdc] at hd
  refine { h with thread_some := ?_, thread_none := ?_, finished_ret := ?_, returns_finished := ?_ }
  · intro d hd hdel
    by_cases hdc : d = c
    · exact ⟨_, by rw [hdc, Function.update_self]⟩
    · rw [Function.update_of_ne hdc]
      exact h.thread_some d hd hdel
  · intro d hd
    have hdc : d ≠ c := by
      rintro rfl
      rw [h.thread_none d hd] at ht
      cases ht
    rw [Function.update_of_ne hdc]
    exact h.thread_none d hd
  · intro d v m hd
    exact h.finished_ret d v m (hset d v m hd)
  · intro p hp
    refine (h.returns_finished p hp).imp_right ?_
    rintro ⟨hmem, t', ht', hfin'⟩
    have hpc : p.1 ≠ c := by
      intro he
      rw [he, ht, Option.some.injEq] at ht'
      rw [ht', hfin'] at hfin
      cases hfin
    rw [Function.update_of_ne hpc]
    exact ⟨hmem, t', ht', hfin'⟩

/-- A member returns. -/
theorem setFinished (h : Book members threads brk tr) {c : CoroPtr} (hc : c ∈ members)
    {t : Thread L} (ht : threads c = some t) (hfin : t.isFinished = false) (v n : Int) :
    Book members (Function.update threads c (some ⟨.finished v, n⟩)) brk (tr ++ [.ret c v]) := by
  have hcreated : created (tr ++ [.ret c v]) = created tr := by simp [created]
  have hwaited : waited (tr ++ [.ret c v]) = waited tr := by simp [waited]
  have hdeleted : deleted (tr ++ [.ret c v]) = deleted tr := by simp [deleted]
  have hreturns : returns (tr ++ [.ret c v]) = returns tr ++ [(c, v)] := by simp [returns]
  have hwaits : waits (tr ++ [.ret c v]) = waits tr := by simp [waits]
  constructor <;> simp only [hcreated, hwaited, hdeleted, hreturns, hwaits]
  case created_eq => exact h.created_eq
  case perm => exact h.perm
  case thread_some =>
    intro d hd hdel
    by_cases hdc : d = c
    · exact ⟨_, by rw [hdc, Function.update_self]⟩
    · rw [Function.update_of_ne hdc]
      exact h.thread_some d hd hdel
  case thread_none =>
    intro d hd
    have hdc : d ≠ c := by
      rintro rfl
      rw [h.thread_none d hd] at ht
      cases ht
    rw [Function.update_of_ne hdc]
    exact h.thread_none d hd
  case deleted_waited => exact h.deleted_waited
  case deleted_nodup => exact h.deleted_nodup
  case finished_ret =>
    intro d u m hd
    by_cases hdc : d = c
    · rw [hdc, Function.update_self] at hd
      simp only [Option.some.injEq, Thread.mk.injEq, Status.finished.injEq] at hd
      rw [hdc, hd.1]
      exact List.mem_append_right _ (List.mem_singleton.2 rfl)
    · rw [Function.update_of_ne hdc] at hd
      exact List.mem_append_left _ (h.finished_ret d u m hd)
  case returns_nodup =>
    rw [List.map_append, List.map_singleton, List.nodup_append]
    refine ⟨h.returns_nodup, List.nodup_singleton _, ?_⟩
    intro d hd e he
    rw [List.mem_singleton.1 he]
    rintro rfl
    obtain ⟨p, hp, rfl⟩ := List.mem_map.1 hd
    rcases h.returns_finished p hp with hw | ⟨-, t', ht', hfin'⟩
    · exact h.not_waited hc hw
    · rw [ht, Option.some.injEq] at ht'
      rw [ht', hfin'] at hfin
      cases hfin
  case returns_finished =>
    intro p hp
    by_cases hpc : p.1 = c
    · rw [hpc, Function.update_self]
      exact Or.inr ⟨hc, _, rfl, rfl⟩
    · rw [Function.update_of_ne hpc]
      rcases List.mem_append.1 hp with hp | hp
      · exact h.returns_finished p hp
      · rw [List.mem_singleton.1 hp] at hpc
        exact absurd rfl hpc
  case waits_ret =>
    intro d f u hd
    obtain ⟨hf, hr⟩ := h.waits_ret d f u hd
    exact ⟨hf, List.mem_append_left _ hr⟩

/-- `coro_sched_wait` takes a finished member out. -/
theorem take (h : Book members threads brk tr) {c : CoroPtr} (hc : c ∈ members) {v n : Int}
    (ht : threads c = some ⟨.finished v, n⟩) :
    Book (members.erase c) threads brk (tr ++ [.wait (some (c, true, v))]) := by
  have hcreated : created (tr ++ [.wait (some (c, true, v))]) = created tr := by simp [created]
  have hwaited : waited (tr ++ [.wait (some (c, true, v))]) = waited tr ++ [c] := by simp [waited]
  have hdeleted : deleted (tr ++ [.wait (some (c, true, v))]) = deleted tr := by simp [deleted]
  have hreturns : returns (tr ++ [.wait (some (c, true, v))]) = returns tr := by simp [returns]
  have hwaits : waits (tr ++ [.wait (some (c, true, v))]) = waits tr ++ [some (c, true, v)] := by
    simp [waits]
  constructor <;> simp only [hcreated, hwaited, hdeleted, hreturns, hwaits]
  case created_eq => exact h.created_eq
  case perm =>
    rw [List.append_assoc]
    exact ((List.perm_cons_erase hc).symm.append_left (waited tr)).trans h.perm
  case thread_some => exact h.thread_some
  case thread_none => exact h.thread_none
  case deleted_waited => exact fun d hd => List.mem_append_left _ (h.deleted_waited d hd)
  case deleted_nodup => exact h.deleted_nodup
  case finished_ret => exact h.finished_ret
  case returns_nodup => exact h.returns_nodup
  case returns_finished =>
    intro p hp
    rcases h.returns_finished p hp with hw | ⟨hmem, ht'⟩
    · exact Or.inl (List.mem_append_left _ hw)
    · by_cases hpc : p.1 = c
      · exact Or.inl (List.mem_append_right _ (List.mem_singleton.2 hpc))
      · exact Or.inr ⟨(List.mem_erase_of_ne hpc).2 hmem, ht'⟩
  case waits_ret =>
    intro d f u hd
    rcases List.mem_append.1 hd with hd | hd
    · exact h.waits_ret d f u hd
    · simp only [List.mem_singleton, Option.some.injEq, Prod.mk.injEq] at hd
      obtain ⟨rfl, rfl, rfl⟩ := hd
      exact ⟨rfl, h.finished_ret d u n ht⟩

end Book

/-! ## What holds in every state -/

/-- While a body runs, it is a member and no member is finished. -/
def Running (a : Sched K L M) : Prop :=
  ∀ c k, a.control = .body c k → c ∈ a.members ∧ ∀ d ∈ a.members, a.isFinished d = false

structure Inv (a : Sched K L M) : Prop where
  book : Book a.members a.threads a.brk a.trace
  running : a.Running

theorem isFinished_eq {a : Sched K L M} {c : CoroPtr} {t : Thread L} (h : a.threads c = some t) :
    a.isFinished c = t.isFinished := by
  simp [isFinished, h]

@[simp] theorem threads_setThread (a : Sched K L M) (c : CoroPtr) (t : Thread L) :
    (a.setThread c t).threads = Function.update a.threads c (some t) := rfl

@[simp] theorem threads_create (a : Sched K L M) (func : L) :
    (a.create func).threads
      = Function.update a.threads (.node a.brk) (some ⟨.ready func, 0⟩) := rfl

theorem inv_init (k : K) (mem : M) : (init k mem : Sched K L M).Inv := by
  refine ⟨?_, fun c k' h => by simp [init] at h⟩
  constructor <;> simp [init, created, waited, deleted, returns, waits]

theorem delete_book {a a' : Sched K L M} {c : CoroPtr}
    (h : Book a.members a.threads a.brk a.trace) (hrun : a.delete c = pure a') :
    c ∈ waited a.trace ∧ a'.members = a.members ∧ a'.control = a.control ∧
      a'.threads = Function.update a.threads c none ∧
      Book a'.members a'.threads a'.brk a'.trace := by
  unfold delete at hrun
  split_ifs at hrun with hc
  · rw [lib_pure_inj] at hrun
    subst hrun
    exact ⟨hc.1, rfl, rfl, rfl, h.delete hc.1 hc.2⟩
  · cases hrun

theorem mainCall_inv {a a' : Sched K L M} {call : MainCall K L}
    (h : Book a.members a.threads a.brk a.trace) (hrun : mainCall a call = pure a') : a'.Inv := by
  cases call with
  | call u =>
      cases u with
      | yield x =>
          rw [mainCall, lib_pure_inj] at hrun
          subst hrun
          exact ⟨h.neutral rfl rfl (Or.inl rfl) rfl rfl, fun c k hc => by cases hc⟩
      | new func x =>
          rw [mainCall, lib_pure_inj] at hrun
          subst hrun
          exact ⟨h.create func, fun c k hc => by cases hc⟩
      | delete c x =>
          cases hdel : a.delete c with
          | error e => rw [mainCall, hdel] at hrun; cases hrun
          | ok b =>
              rw [mainCall, hdel] at hrun
              obtain rfl := (lib_pure_inj _ _).1 hrun
              obtain ⟨-, -, -, -, hbook⟩ := delete_book h hdel
              exact ⟨hbook, fun c k hc => by cases hc⟩
  | wait k =>
      rw [mainCall, lib_pure_inj] at hrun
      subst hrun
      exact ⟨h, fun c k hc => by cases hc⟩
  | done =>
      rw [mainCall, lib_pure_inj] at hrun
      subst hrun
      exact ⟨h, fun c k hc => by cases hc⟩

theorem wait_inv {a : Sched K L M} (h : Book a.members a.threads a.brk a.trace)
    (k : Option CoroPtr → K) : (a.wait k).Inv := by
  unfold wait
  split
  · next c hfind =>
      have hc := List.mem_of_find?_eq_some hfind
      have hfin := List.find?_some hfind
      obtain ⟨t, ht⟩ := h.member_thread hc
      rw [isFinished_eq ht] at hfin
      obtain ⟨status, n⟩ := t
      cases status with
      | ready l => cases hfin
      | finished v =>
          have hret : a.retOf c = v := by simp [retOf, ht, Thread.ret]
          rw [hret]
          exact ⟨h.take hc ht, fun c k hc => by cases hc⟩
  · next hfind =>
      rw [List.find?_eq_none] at hfind
      split
      · next hnil => exact ⟨h.neutral rfl rfl (Or.inr rfl) rfl rfl, fun c k hc => by cases hc⟩
      · next c rest hcons =>
          refine ⟨h.neutral rfl rfl (Or.inl rfl) rfl rfl, fun d k' hd => ?_⟩
          obtain ⟨rfl, -⟩ := Control.body.inj hd
          refine ⟨by simp [hcons], fun e he => ?_⟩
          exact Bool.eq_false_iff.2 (hfind e he)

/-- Passing control on within a round. -/
theorem switchTo_inv {a : Sched K L M} (h : Book a.members a.threads a.brk a.trace)
    (k : Option CoroPtr → K) (d : Option CoroPtr)
    (hd : ∀ e, d = some e → e ∈ a.members ∧ ∀ m ∈ a.members, a.isFinished m = false) :
    (a.switchTo k d).Inv := by
  cases d with
  | none => exact ⟨h.neutral rfl rfl (Or.inl rfl) rfl rfl, fun c k hc => by cases hc⟩
  | some e =>
      refine ⟨h.neutral rfl rfl (Or.inl rfl) rfl rfl, fun c k' hc => ?_⟩
      obtain ⟨rfl, -⟩ := Control.body.inj hc
      exact hd e rfl

theorem isFinished_update {a : Sched K L M} {c d : CoroPtr} {t : Option (Thread L)} (hne : d ≠ c) :
    ({ a with threads := Function.update a.threads c t } : Sched K L M).isFinished d
      = a.isFinished d := by
  simp [isFinished, Function.update_of_ne hne]

theorem setReady_unfinished {a : Sched K L M} {c : CoroPtr} {l : L} {n : Int}
    (h : ∀ d ∈ a.members, a.isFinished d = false) :
    ∀ d ∈ a.members, (a.setThread c ⟨.ready l, n⟩).isFinished d = false := by
  intro d hd
  by_cases hdc : d = c
  · rw [isFinished_eq (t := ⟨.ready l, n⟩) (by rw [threads_setThread, hdc, Function.update_self])]
    rfl
  · rw [setThread, isFinished_update hdc]
    exact h d hd

/-- A new coroutine has not finished. -/
theorem create_unfinished {a : Sched K L M} (func : L)
    (h : ∀ d ∈ a.members, a.isFinished d = false) :
    ∀ d ∈ (a.create func).members, (a.create func).isFinished d = false := by
  intro d hd
  by_cases hdb : d = .node a.brk
  · rw [isFinished_eq (t := ⟨.ready func, 0⟩)
      (by rw [threads_create, hdb, Function.update_self])]
    rfl
  · have hmem : d ∈ a.members := (List.mem_cons.1 hd).resolve_left hdb
    have hold : (a.create func).isFinished d = a.isFinished d := by
      simp [isFinished, create, Function.update_of_ne hdb]
    rw [hold]
    exact h d hmem

/-- A member that has not finished goes on in another local state. -/
theorem setReady_inv {a : Sched K L M} {c : CoroPtr} {k : Option CoroPtr → K} {l : L} {n : Int}
    (hbook : Book a.members a.threads a.brk a.trace) (hc : c ∈ a.members)
    (hctl : a.control = .body c k) (ht : a.threads c = some ⟨.ready l, n⟩)
    (hall : ∀ d ∈ a.members, a.isFinished d = false) (x : L) (m : Int) :
    (a.setThread c ⟨.ready x, m⟩).Inv := by
  refine ⟨hbook.setReady hc ht rfl x m, fun d k' hd => ?_⟩
  have hctl' : a.control = .body d k' := hd
  rw [hctl] at hctl'
  obtain ⟨rfl, -⟩ := Control.body.inj hctl'
  exact ⟨hc, setReady_unfinished hall⟩

theorem bodyCall_inv {a a' : Sched K L M} {c : CoroPtr} {l : L} {n : Int}
    {k : Option CoroPtr → K} {call : BodyCall L} (h : a.Inv) (hctl : a.control = .body c k)
    (ht : a.threads c = some ⟨.ready l, n⟩) (hrun : bodyCall a c n k call = pure a') : a'.Inv := by
  obtain ⟨hbook, hrunning⟩ := h
  obtain ⟨hc, hall⟩ := hrunning c k hctl
  cases call with
  | call u =>
      cases u with
      | yield x =>
          rw [bodyCall, lib_pure_inj] at hrun
          subst hrun
          refine switchTo_inv ((hbook.setReady hc ht rfl x (n + 1)).neutral rfl rfl (Or.inl rfl)
            rfl rfl) k _ ?_
          intro e he
          exact ⟨succ_mem he, setReady_unfinished hall⟩
      | new func x =>
          rw [bodyCall, lib_pure_inj] at hrun
          subst hrun
          have hcb : c ≠ .node a.brk :=
            fun he => hbook.fresh_not_created (he ▸ hbook.member_created hc)
          have ht' : (a.create func).threads c = some ⟨.ready l, n⟩ := by
            rw [threads_create, Function.update_of_ne hcb, ht]
          have hctl' : (a.create func).control = .body c k := hctl
          exact setReady_inv (hbook.create func) (List.mem_cons_of_mem _ hc) hctl' ht'
            (create_unfinished func hall) _ n
      | delete d x =>
          cases hdel : a.delete d with
          | error e => rw [bodyCall, hdel] at hrun; cases hrun
          | ok b =>
              rw [bodyCall, hdel] at hrun
              obtain rfl := (lib_pure_inj _ _).1 hrun
              obtain ⟨hd, hmembers, hcontrol, hthreads, hbook'⟩ := delete_book hbook hdel
              have hne : ∀ m ∈ a.members, m ≠ d := fun m hm he => hbook.not_waited hm (he ▸ hd)
              have ht' : b.threads c = some ⟨.ready l, n⟩ := by
                rw [hthreads, Function.update_of_ne (hne c hc), ht]
              have hall' : ∀ m ∈ b.members, b.isFinished m = false := by
                rw [hmembers]
                intro m hm
                have hold : b.isFinished m = a.isFinished m := by
                  simp [isFinished, hthreads, Function.update_of_ne (hne m hm)]
                rw [hold]
                exact hall m hm
              exact setReady_inv hbook' (hmembers ▸ hc) (hcontrol.trans hctl) ht' hall' x n
  | ret v =>
      rw [bodyCall, lib_pure_inj] at hrun
      subst hrun
      exact switchTo_inv (hbook.setFinished hc ht rfl v n) k none (fun e he => by cases he)

/-- The member in control is ready to run. -/
theorem Inv.ready {a : Sched K L M} (h : a.Inv) {c : CoroPtr} {k : Option CoroPtr → K}
    (hctl : a.control = .body c k) : ∃ l n, a.threads c = some ⟨.ready l, n⟩ := by
  obtain ⟨hc, hall⟩ := h.running c k hctl
  obtain ⟨⟨status, n⟩, ht⟩ := h.book.member_thread hc
  have hfin := hall c hc
  rw [isFinished_eq ht] at hfin
  cases status with
  | ready l => exact ⟨l, n, ht⟩
  | finished v => cases hfin

/-! ## Steps -/

theorem runUser_bind {α β : Type} {x : C α} {f : α → Lib β} {b : β}
    (h : (runUser x >>= f) = pure b) : ∃ a, x = pure a ∧ f a = pure b := by
  cases x with
  | error e => cases h
  | ok a => exact ⟨a, rfl, h⟩

/-- Everything a step can do. -/
theorem step_cases {P : Program K L M} {a a' : Sched K L M}
    (h : step P a = pure (some a')) :
    (∃ k, a.control = .wait k ∧ a' = a.wait k) ∨
    (∃ k call mem, a.control = .main k ∧ P.main a.view k a.mem = pure (call, mem) ∧
      mainCall { a with mem := mem } call = pure a') ∨
    (∃ c k l n call mem, a.control = .body c k ∧ a.threads c = some ⟨.ready l, n⟩ ∧
      P.body a.view l a.mem = pure (call, mem) ∧
      bodyCall { a with mem := mem } c n k call = pure a') := by
  unfold step at h
  cases hctl : a.control with
  | halted => rw [hctl] at h; cases h
  | wait k =>
      rw [hctl] at h
      exact Or.inl ⟨k, rfl, by cases h; rfl⟩
  | main k =>
      rw [hctl] at h
      obtain ⟨⟨call, mem⟩, hcall, hrest⟩ := runUser_bind h
      obtain ⟨b, hmain, hb⟩ := lib_bind hrest
      cases hb
      exact Or.inr (Or.inl ⟨k, call, mem, rfl, hcall, hmain⟩)
  | body c k =>
      rw [hctl] at h
      simp only at h
      split at h
      · next l n ht =>
          obtain ⟨⟨call, mem⟩, hcall, hrest⟩ := runUser_bind h
          obtain ⟨b, hbody, hb⟩ := lib_bind hrest
          cases hb
          exact Or.inr (Or.inr ⟨c, k, l, n, call, mem, rfl, ht, hcall, hbody⟩)
      · cases h

/-- A step of the main context. -/
theorem step_main {P : Program K L M} {a a' : Sched K L M} {k : K} {call : MainCall K L} {mem : M}
    (hctl : a.control = .main k) (hrun : P.main a.view k a.mem = pure (call, mem))
    (hcall : mainCall { a with mem := mem } call = pure a') : step P a = pure (some a') := by
  obtain ⟨members, threads, schedCount, brk, control, old, trace⟩ := a
  obtain rfl : control = .main k := hctl
  simp only [step, hrun]
  change (mainCall _ call >>= _) = _
  rw [hcall]
  rfl

/-- A step of the body of a coroutine. -/
theorem step_body {P : Program K L M} {a a' : Sched K L M} {c : CoroPtr} {k : Option CoroPtr → K}
    {l : L} {n : Int} {call : BodyCall L} {mem : M} (hctl : a.control = .body c k)
    (ht : a.threads c = some ⟨.ready l, n⟩) (hrun : P.body a.view l a.mem = pure (call, mem))
    (hcall : bodyCall { a with mem := mem } c n k call = pure a') : step P a = pure (some a') := by
  obtain ⟨members, threads, schedCount, brk, control, old, trace⟩ := a
  obtain rfl : control = .body c k := hctl
  simp only [step, show threads c = some ⟨.ready l, n⟩ from ht, hrun]
  change (bodyCall _ c n k call >>= _) = _
  rw [hcall]
  rfl

/-- **The invariant is preserved by every step.** -/
theorem step_inv {P : Program K L M} {a a' : Sched K L M} (h : a.Inv)
    (hstep : step P a = pure (some a')) : a'.Inv := by
  rcases step_cases hstep with ⟨k, -, rfl⟩ | ⟨k, call, mem, -, -, hrun⟩ |
    ⟨c, k, l, n, call, mem, hctl, ht, -, hrun⟩
  · exact wait_inv h.book k
  · exact mainCall_inv (a := { a with mem := mem }) h.book hrun
  · have hinv : Inv { a with mem := mem } := ⟨h.book, h.running⟩
    exact bodyCall_inv hinv hctl ht hrun

end Sched

end SysProg.Libcoro
