import SysProg.Coro.Scheduler

set_option autoImplicit false

/-! # The library's heap

`HeapRep` relates the library's memory to the scheduler without pointers: the links of the
coroutines are those of the member list, and the context of every member that is not running resumes
it in its local state. Every update the library makes keeps it. -/

namespace SysProg.Libcoro

open LinkedList

variable {K L M : Type}

/-- What the memory of a coroutine shows of its thread. -/
def Coro.shadow (r : Coro K L) : Int × Bool × Int := (r.ret, r.isFinished, r.switchCount)

def Thread.shadow (t : Thread L) : Int × Bool × Int := (t.ret, t.isFinished, t.switchCount)

/-- The local state in which a jump to the context of the coroutine `c` resumes its body. -/
def Coro.resumes (r : Coro K L) (c : CoroPtr) : Option L :=
  match r.ctx with
  | .body d => if d = c then r.func else none
  | .yieldTo src (.yield (.body d l)) => if src = c ∧ d = c then some l else none
  | _ => none

/-- The memory of a coroutine once its context has been jumped to. -/
def Coro.used (r : Coro K L) : Coro K L := { r with ctx := .unset }

/-- The heap `heap`, with the list from `head`, holds the members and threads of the scheduler;
    the context of `running` is in use. -/
structure HeapRep (heap : CoroPtr → Option (Coro K L)) (head : Option CoroPtr)
    (members : List CoroPtr) (threads : CoroPtr → Option (Thread L)) (schedCount : Int)
    (running : Option CoroPtr) : Prop where
  list : IsList (fun c => (heap c).bind Coro.next) (fun c => (heap c).bind Coro.prev) head members
  sched : ∃ r, heap .sched = some r ∧ r.next = none ∧ r.shadow = (0, false, schedCount)
  node : ∀ n, (heap (.node n)).map Coro.shadow = (threads (.node n)).map Thread.shadow
  ready : ∀ c ∈ members, running ≠ some c → ∀ l n, threads c = some ⟨.ready l, n⟩ →
    ∃ r, heap c = some r ∧ r.resumes c = some l

namespace HeapRep

variable {heap : CoroPtr → Option (Coro K L)} {head : Option CoroPtr} {members : List CoroPtr}
  {threads : CoroPtr → Option (Thread L)} {schedCount : Int} {running : Option CoroPtr}

/-- The memory of a coroutine whose thread is `t`. -/
theorem get (h : HeapRep heap head members threads schedCount running) {n : Nat} {t : Thread L}
    (ht : threads (.node n) = some t) : ∃ r, heap (.node n) = some r ∧ r.shadow = t.shadow := by
  have hnode := h.node n
  rw [ht, Option.map_some] at hnode
  cases hr : heap (.node n) with
  | none => rw [hr] at hnode; cases hnode
  | some r =>
      rw [hr] at hnode
      exact ⟨r, rfl, Option.some.inj hnode⟩

/-- Storing a coroutine with the same links keeps the list. -/
theorem list_update (h : HeapRep heap head members threads schedCount running) {c : CoroPtr}
    {r r' : Coro K L} (hr : heap c = some r) (hnext : r'.next = r.next) (hprev : r'.prev = r.prev) :
    IsList (fun d => (Function.update heap c (some r') d).bind Coro.next)
      (fun d => (Function.update heap c (some r') d).bind Coro.prev) head members := by
  refine ⟨h.list.linked.congr ?_ ?_, h.list.nodup⟩
  · intro d _
    by_cases hdc : d = c
    · rw [hdc, Function.update_self, hr]
      exact hnext
    · rw [Function.update_of_ne hdc]
  · intro d _
    by_cases hdc : d = c
    · rw [hdc, Function.update_self, hr]
      exact hprev
    · rw [Function.update_of_ne hdc]

/-- The scheduler switches. -/
theorem touchSched (h : HeapRep heap head members threads schedCount running)
    (hnodes : CoroPtr.sched ∉ members) {r r' : Coro K L} (hr : heap .sched = some r)
    (hnext : r'.next = r.next) (hprev : r'.prev = r.prev) {count : Int}
    (hshadow : r'.shadow = (0, false, count)) :
    HeapRep (Function.update heap .sched (some r')) head members threads count running := by
  obtain ⟨q, hq, hqnext, -⟩ := h.sched
  rw [hr, Option.some.injEq] at hq
  subst hq
  refine ⟨h.list_update hr hnext hprev, ⟨r', by rw [Function.update_self], by rw [hnext, hqnext],
    hshadow⟩, ?_, ?_⟩
  · intro n
    rw [Function.update_of_ne (by simp)]
    exact h.node n
  · intro c hc hrun l n ht
    have hcs : c ≠ .sched := by
      rintro rfl
      exact hnodes hc
    rw [Function.update_of_ne hcs]
    exact h.ready c hc hrun l n ht

/-- The running member is suspended in its new local state, with its context saved. -/
theorem leave {i : Nat} (h : HeapRep heap head members threads schedCount (some (.node i)))
    {r : Coro K L} (hr : heap (.node i) = some r) (r' : Coro K L) (t : Thread L)
    (hnext : r'.next = r.next) (hprev : r'.prev = r.prev) (hshadow : r'.shadow = t.shadow)
    (hres : ∀ l n, t = ⟨.ready l, n⟩ → r'.resumes (.node i) = some l) :
    HeapRep (Function.update heap (.node i) (some r')) head members
      (Function.update threads (.node i) (some t)) schedCount none := by
  obtain ⟨q, hq, hqnext, hqshadow⟩ := h.sched
  refine ⟨h.list_update hr hnext hprev, ⟨q, by rw [Function.update_of_ne (by simp), hq], hqnext,
    hqshadow⟩, ?_, ?_⟩
  · intro n
    by_cases hn : (CoroPtr.node n) = .node i
    · rw [hn, Function.update_self, Function.update_self, Option.map_some, Option.map_some, hshadow]
    · rw [Function.update_of_ne hn, Function.update_of_ne hn]
      exact h.node n
  · intro c hc _ l n ht
    by_cases hci : c = .node i
    · rw [hci, Function.update_self, Option.some.injEq] at ht
      exact ⟨r', by rw [hci, Function.update_self], by rw [hci]; exact hres l n ht⟩
    · rw [Function.update_of_ne hci] at ht ⊢
      exact h.ready c hc (fun he => hci (Option.some.inj he).symm) l n ht

/-- A jump to a member uses its context up. -/
theorem enter (h : HeapRep heap head members threads schedCount none) {i : Nat}
    {r : Coro K L} (hr : heap (.node i) = some r) :
    HeapRep (Function.update heap (.node i) (some r.used)) head members threads
      schedCount (some (.node i)) := by
  obtain ⟨q, hq, hqnext, hqshadow⟩ := h.sched
  refine ⟨h.list_update hr rfl rfl, ⟨q, by rw [Function.update_of_ne (by simp), hq], hqnext,
    hqshadow⟩, ?_, ?_⟩
  · intro n
    by_cases hn : (CoroPtr.node n) = .node i
    · rw [hn, Function.update_self, Option.map_some, ← h.node i, hr]
      rfl
    · rw [Function.update_of_ne hn]
      exact h.node n
  · intro c hc hrun l n ht
    have hci : c ≠ .node i := fun he => hrun (by rw [he])
    rw [Function.update_of_ne hci]
    exact h.ready c hc (by simp) l n ht

/-- The running member goes on in another local state. -/
theorem setReady {i : Nat} (h : HeapRep heap head members threads schedCount (some (.node i)))
    {l x : L} {n : Int} (ht : threads (.node i) = some ⟨.ready l, n⟩) :
    HeapRep heap head members (Function.update threads (.node i) (some ⟨.ready x, n⟩)) schedCount
      (some (.node i)) := by
  refine ⟨h.list, h.sched, ?_, ?_⟩
  · intro j
    by_cases hj : (CoroPtr.node j) = .node i
    · rw [hj, Function.update_self, h.node i, ht]
      rfl
    · rw [Function.update_of_ne hj]
      exact h.node j
  · intro c hc hrun l' n' hl
    have hci : c ≠ .node i := fun he => hrun (by rw [he])
    rw [Function.update_of_ne hci] at hl
    exact h.ready c hc hrun l' n' hl

/-- A coroutine that is no member is deleted. -/
theorem delete {i : Nat} (h : HeapRep heap head members threads schedCount running)
    (hi : .node i ∉ members) :
    HeapRep (Function.update heap (.node i) none) head members
      (Function.update threads (.node i) none) schedCount running := by
  have hne : ∀ c ∈ members, c ≠ .node i := fun c hc he => hi (he ▸ hc)
  obtain ⟨q, hq, hqnext, hqshadow⟩ := h.sched
  refine ⟨⟨h.list.linked.congr ?_ ?_, h.list.nodup⟩,
    ⟨q, by rw [Function.update_of_ne (by simp), hq], hqnext, hqshadow⟩, ?_, ?_⟩
  · intro c hc
    rw [Function.update_of_ne (hne c hc)]
  · intro c hc
    rw [Function.update_of_ne (hne c hc)]
  · intro n
    by_cases hn : (CoroPtr.node n) = .node i
    · rw [hn, Function.update_self, Function.update_self]
      rfl
    · rw [Function.update_of_ne hn, Function.update_of_ne hn]
      exact h.node n
  · intro c hc hrun l n ht
    rw [Function.update_of_ne (hne c hc)] at ht ⊢
    exact h.ready c hc hrun l n ht

end HeapRep

/-! ## The pointer updates of the list -/

/-- The heap with the coroutine at `p`, if there is one, changed by `f`. -/
def alter (heap : CoroPtr → Option (Coro K L)) (p : CoroPtr) (f : Coro K L → Coro K L) :
    CoroPtr → Option (Coro K L) :=
  Function.update heap p ((heap p).map f)

theorem alter_of_some {heap : CoroPtr → Option (Coro K L)} {p : CoroPtr} {r : Coro K L}
    (hr : heap p = some r) (f : Coro K L → Coro K L) :
    alter heap p f = Function.update heap p (some (f r)) := by
  rw [alter, hr, Option.map_some]

/-- A field that `f` does not change. -/
theorem alter_bind_same {α : Type} (heap : CoroPtr → Option (Coro K L)) (p : CoroPtr)
    {f : Coro K L → Coro K L} {g : Coro K L → Option α} (hg : ∀ r, g (f r) = g r) (x : CoroPtr) :
    (alter heap p f x).bind g = (heap x).bind g := by
  by_cases hx : x = p
  · rw [hx, alter, Function.update_self]
    cases heap p with
    | none => rfl
    | some r => exact hg r
  · rw [alter, Function.update_of_ne hx]

/-- A field that `f` sets. -/
theorem alter_bind_set {α : Type} {heap : CoroPtr → Option (Coro K L)} {p : CoroPtr}
    {r : Coro K L} (hr : heap p = some r) {f : Coro K L → Coro K L} {g : Coro K L → Option α}
    {v : Option α} (hg : ∀ r, g (f r) = v) (x : CoroPtr) :
    (alter heap p f x).bind g = if some p = some x then v else (heap x).bind g := by
  by_cases hx : x = p
  · rw [hx, if_pos rfl, alter, Function.update_self, hr]
    exact hg r
  · rw [alter, Function.update_of_ne hx, if_neg (fun he => hx (Option.some.inj he).symm)]

theorem modify_run {s : State K L M} {p : CoroPtr} {r : Coro K L} (hr : s.heap p = some r)
    (f : Coro K L → Coro K L) : s.modify p f = pure { s with heap := alter s.heap p f } := by
  simp only [State.modify, State.get, hr, alter_of_some hr, pure_bind]

theorem alter_some {heap : CoroPtr → Option (Coro K L)} {x : CoroPtr} {r : Coro K L}
    (hr : heap x = some r) (p : CoroPtr) (f : Coro K L → Coro K L) :
    ∃ r', alter heap p f x = some r' := by
  by_cases hx : x = p
  · exact ⟨f r, by rw [alter, ← hx, Function.update_self, hr, Option.map_some]⟩
  · exact ⟨r, by rw [alter, Function.update_of_ne hx, hr]⟩

/-- What a coroutine holds besides its links. -/
def Coro.content (r : Coro K L) : (Int × Bool × Int) × Ctx K L × Option L :=
  (r.shadow, r.ctx, r.func)

theorem alter_content (heap : CoroPtr → Option (Coro K L)) (p : CoroPtr)
    {f : Coro K L → Coro K L} (hf : ∀ r, (f r).content = r.content) (x : CoroPtr) :
    (alter heap p f x).map Coro.content = (heap x).map Coro.content := by
  by_cases hx : x = p
  · rw [hx, alter, Function.update_self, Option.map_map]
    exact congrArg (fun g => (heap p).map g) (funext hf)
  · rw [alter, Function.update_of_ne hx]

/-- `p->next = v`, when `p` is not NULL. -/
def setNext (heap : CoroPtr → Option (Coro K L)) (p v : Option CoroPtr) :
    CoroPtr → Option (Coro K L) :=
  match p with
  | some p => alter heap p fun q => { q with next := v }
  | none => heap

/-- `n->prev = v`, when `n` is not NULL. -/
def setPrev (heap : CoroPtr → Option (Coro K L)) (n v : Option CoroPtr) :
    CoroPtr → Option (Coro K L) :=
  match n with
  | some n => alter heap n fun q => { q with prev := v }
  | none => heap

section Links

variable {heap : CoroPtr → Option (Coro K L)} {p v : Option CoroPtr}

theorem setNext_content (x : CoroPtr) :
    (setNext heap p v x).map Coro.content = (heap x).map Coro.content := by
  cases p with
  | none => rfl
  | some p => exact alter_content heap p (f := fun q => { q with next := v }) (fun _ => rfl) x

theorem setPrev_content (x : CoroPtr) :
    (setPrev heap p v x).map Coro.content = (heap x).map Coro.content := by
  cases p with
  | none => rfl
  | some p => exact alter_content heap p (f := fun q => { q with prev := v }) (fun _ => rfl) x

theorem setNext_prev (x : CoroPtr) :
    (setNext heap p v x).bind Coro.prev = (heap x).bind Coro.prev := by
  cases p with
  | none => rfl
  | some p => exact alter_bind_same heap p (f := fun q => { q with next := v }) (fun _ => rfl) x

theorem setPrev_next (x : CoroPtr) :
    (setPrev heap p v x).bind Coro.next = (heap x).bind Coro.next := by
  cases p with
  | none => rfl
  | some p => exact alter_bind_same heap p (f := fun q => { q with prev := v }) (fun _ => rfl) x

theorem setNext_next (hp : ∀ q, p = some q → ∃ r, heap q = some r) (x : CoroPtr) :
    (setNext heap p v x).bind Coro.next
      = if p = some x then v else (heap x).bind Coro.next := by
  cases p with
  | none => simp [setNext]
  | some p =>
      obtain ⟨r, hr⟩ := hp p rfl
      exact alter_bind_set hr (f := fun q => { q with next := v }) (fun _ => rfl) x

theorem setPrev_prev (hp : ∀ q, p = some q → ∃ r, heap q = some r) (x : CoroPtr) :
    (setPrev heap p v x).bind Coro.prev
      = if p = some x then v else (heap x).bind Coro.prev := by
  cases p with
  | none => simp [setPrev]
  | some p =>
      obtain ⟨r, hr⟩ := hp p rfl
      exact alter_bind_set hr (f := fun q => { q with prev := v }) (fun _ => rfl) x

theorem setNext_some {x : CoroPtr} (h : ∃ r, heap x = some r) : ∃ r, setNext heap p v x = some r := by
  obtain ⟨r, hr⟩ := h
  cases p with
  | none => exact ⟨r, hr⟩
  | some p => exact alter_some hr p _

end Links

/-- The heap after `coro_list_delete` of a coroutine with the links of `r`. -/
def unlink (heap : CoroPtr → Option (Coro K L)) (r : Coro K L) : CoroPtr → Option (Coro K L) :=
  setPrev (setNext heap r.prev r.next) r.next r.prev

theorem coroListDelete_run {s : State K L M} {c : CoroPtr} {r : Coro K L} (hr : s.heap c = some r)
    (hp : ∀ p, r.prev = some p → ∃ q, s.heap p = some q)
    (hn : ∀ n, r.next = some n → ∃ q, s.heap n = some q) :
    coroListDelete s c = pure { s with
      heap := unlink s.heap r
      coroList := if r.prev = none then r.next else s.coroList } := by
  simp only [coroListDelete, State.get, hr, pure_bind, unlink]
  cases hprev : r.prev with
  | none =>
      cases hnext : r.next with
      | none => simp [setNext, setPrev]
      | some n =>
          obtain ⟨q, hq⟩ := hn n hnext
          simp [modify_run hq, setNext, setPrev]
  | some p =>
      obtain ⟨q, hq⟩ := hp p hprev
      cases hnext : r.next with
      | none => simp [modify_run hq, setNext, setPrev]
      | some n =>
          obtain ⟨q', hq'⟩ := hn n hnext
          obtain ⟨q'', hq''⟩ := alter_some hq' p fun q => { q with next := some n }
          simp only [modify_run hq, pure_bind]
          rw [modify_run (s := { s with heap := alter s.heap p _ }) hq'']
          simp [setNext, setPrev]

theorem update_stored {heap : CoroPtr → Option (Coro K L)} {c d : CoroPtr} {r : Coro K L}
    (h : d ≠ c → ∃ q, heap d = some q) : ∃ q, Function.update heap c (some r) d = some q := by
  by_cases hdc : d = c
  · exact ⟨r, by rw [hdc, Function.update_self]⟩
  · rw [Function.update_of_ne hdc]
    exact h hdc

/-- The heap after `coro_list_add` of `c`, stored as `r`, in front of `head`. -/
def link (heap : CoroPtr → Option (Coro K L)) (c : CoroPtr) (r : Coro K L)
    (head : Option CoroPtr) : CoroPtr → Option (Coro K L) :=
  setPrev (Function.update heap c (some { r with next := head, prev := none })) head (some c)

theorem coroListAdd_run {s : State K L M} {heap : CoroPtr → Option (Coro K L)} {c : CoroPtr}
    {r : Coro K L} (hs : s.heap = Function.update heap c (some r))
    (hh : ∀ h, s.coroList = some h → ∃ q, heap h = some q) :
    coroListAdd s c = pure { s with heap := link heap c r s.coroList, coroList := some c } := by
  have hr : s.heap c = some r := by rw [hs, Function.update_self]
  have hheap : alter s.heap c (fun r => { r with next := s.coroList, prev := none })
      = Function.update heap c (some { r with next := s.coroList, prev := none }) := by
    rw [alter_of_some hr, hs, Function.update_idem]
  simp only [coroListAdd, modify_run hr, pure_bind, hheap, link]
  cases hlist : s.coroList with
  | none => rfl
  | some h =>
      obtain ⟨q, hq⟩ := update_stored (c := c) (r := { r with next := some h, prev := none })
        fun _ => hh h hlist
      simp only [State.modify, State.get, hq, pure_bind, setPrev, alter_of_some hq]

/-! ## The list the links make up -/

section Lists

variable {heap : CoroPtr → Option (Coro K L)} {head : Option CoroPtr} {members : List CoroPtr}
  {c : CoroPtr} {r : Coro K L}

theorem link_content (x : CoroPtr) : (link heap c r head x).map Coro.content
    = (Function.update heap c (some r) x).map Coro.content := by
  rw [link, setPrev_content]
  by_cases hx : x = c
  · rw [hx, Function.update_self, Function.update_self]
    rfl
  · rw [Function.update_of_ne hx, Function.update_of_ne hx]

theorem unlink_content (x : CoroPtr) :
    (unlink heap r x).map Coro.content = (heap x).map Coro.content := by
  rw [unlink, setPrev_content, setNext_content]

theorem stored_of_content {heap heap' : CoroPtr → Option (Coro K L)} {x : CoroPtr}
    (h : (heap' x).map Coro.content = (heap x).map Coro.content) (hx : ∃ r, heap x = some r) :
    ∃ r, heap' x = some r := by
  obtain ⟨r, hr⟩ := hx
  rw [hr, Option.map_some] at h
  obtain ⟨r', hr', -⟩ := Option.map_eq_some_iff.1 h
  exact ⟨r', hr'⟩

theorem link_next (x : CoroPtr) : (link heap c r head x).bind Coro.next
    = if x = c then head else (heap x).bind Coro.next := by
  rw [link, setPrev_next]
  by_cases hx : x = c
  · rw [hx, Function.update_self, if_pos rfl]
    rfl
  · rw [Function.update_of_ne hx, if_neg hx]

theorem link_prev (hh : ∀ d, head = some d → ∃ q, heap d = some q) (x : CoroPtr) :
    (link heap c r head x).bind Coro.prev
      = if head = some x then some c else if x = c then none else (heap x).bind Coro.prev := by
  rw [link, setPrev_prev fun d hd => update_stored fun _ => hh d hd]
  by_cases hx : x = c
  · rw [hx, Function.update_self, if_pos rfl]
    rfl
  · rw [Function.update_of_ne hx, if_neg hx]

theorem unlink_next (hp : ∀ p, r.prev = some p → ∃ q, heap p = some q) (x : CoroPtr) :
    (unlink heap r x).bind Coro.next
      = if r.prev = some x then r.next else (heap x).bind Coro.next := by
  rw [unlink, setPrev_next, setNext_next hp]

theorem unlink_prev (hn : ∀ n, r.next = some n → ∃ q, heap n = some q) (x : CoroPtr) :
    (unlink heap r x).bind Coro.prev
      = if r.next = some x then r.prev else (heap x).bind Coro.prev := by
  rw [unlink, setPrev_prev (fun q hq => setNext_some (hn q hq)), setNext_prev]

/-- The links of the heap, from `head`, are those of the list `members` of coroutines. -/
structure ListRep (heap : CoroPtr → Option (Coro K L)) (head : Option CoroPtr)
    (members : List CoroPtr) : Prop where
  list : IsList (fun c => (heap c).bind Coro.next) (fun c => (heap c).bind Coro.prev) head members
  stored : ∀ c ∈ members, ∃ r, heap c = some r

namespace ListRep

theorem head_mem (h : ListRep heap head members) {d : CoroPtr} (hd : head = some d) :
    d ∈ members := by
  rw [h.list.linked.head_eq] at hd
  exact List.mem_of_mem_head? hd

theorem prev_mem (h : ListRep heap head members) (hc : c ∈ members) (hr : heap c = some r)
    {p : CoroPtr} (hp : r.prev = some p) : p ∈ members := by
  have hprev : (heap c).bind Coro.prev = r.prev := by rw [hr, Option.bind_some]
  rcases h.list.linked.prev_mem hc with hnone | ⟨q, hq, he⟩
  · rw [hprev, hp] at hnone
    cases hnone
  · rw [hprev, hp] at he
    exact Option.some.inj he ▸ hq

theorem next_mem (h : ListRep heap head members) (hc : c ∈ members) (hr : heap c = some r)
    {n : CoroPtr} (hn : r.next = some n) : n ∈ members := by
  refine h.list.linked.next_mem hc ?_
  rw [hr, Option.bind_some, hn]

/-- `coro_list_add` of `c` puts it in front. -/
theorem add (h : ListRep heap head members) (hc : c ∉ members) :
    ListRep (link heap c r head) (some c) (c :: members) := by
  refine ⟨h.list.insert hc link_next (link_prev fun _ hd => h.stored _ (h.head_mem hd)), ?_⟩
  intro d hd
  exact stored_of_content (link_content d)
    (update_stored fun hdc => h.stored d ((List.mem_cons.1 hd).resolve_left hdc))

/-- `coro_list_delete` of `c` takes it out. -/
theorem delete (h : ListRep heap head members) (hc : c ∈ members) (hr : heap c = some r) :
    ListRep (unlink heap r) (if r.prev = none then r.next else head) (members.erase c) := by
  have hprev : (heap c).bind Coro.prev = r.prev := by rw [hr, Option.bind_some]
  have hnext : (heap c).bind Coro.next = r.next := by rw [hr, Option.bind_some]
  refine ⟨?_, fun d hd => stored_of_content (unlink_content d)
    (h.stored d (List.mem_of_mem_erase hd))⟩
  have hlist : IsList (fun d => (unlink heap r d).bind Coro.next)
      (fun d => (unlink heap r d).bind Coro.prev) _ (members.erase c) :=
    h.list.erase hc
      (fun x => by
        simp only [hprev, hnext]
        exact unlink_next (fun p hp => h.stored p (h.prev_mem hc hr hp)) x)
      (fun x => by
        simp only [hprev, hnext]
        exact unlink_prev (fun n hn => h.stored n (h.next_mem hc hr hn)) x)
  simp only [hprev, hnext] at hlist
  exact hlist

end ListRep

end Lists

namespace HeapRep

variable {heap : CoroPtr → Option (Coro K L)} {head : Option CoroPtr} {members : List CoroPtr}
  {threads : CoroPtr → Option (Thread L)} {schedCount : Int} {running : Option CoroPtr}

/-- What a coroutine with the same content shows. -/
theorem same_content {heap' : CoroPtr → Option (Coro K L)} {x : CoroPtr} {r : Coro K L}
    (hcontent : (heap' x).map Coro.content = (heap x).map Coro.content) (hr : heap x = some r) :
    ∃ r', heap' x = some r' ∧ r'.shadow = r.shadow ∧ ∀ c, r'.resumes c = r.resumes c := by
  rw [hr, Option.map_some] at hcontent
  cases hr' : heap' x with
  | none => rw [hr'] at hcontent; cases hcontent
  | some r' =>
      rw [hr', Option.map_some, Option.some.injEq] at hcontent
      simp only [Coro.content, Prod.mk.injEq] at hcontent
      obtain ⟨hshadow, hctx, hfunc⟩ := hcontent
      refine ⟨r', rfl, hshadow, fun c => ?_⟩
      rw [Coro.resumes, Coro.resumes, hctx, hfunc]

theorem same_shadow {heap heap' : CoroPtr → Option (Coro K L)} {x : CoroPtr}
    (hcontent : (heap' x).map Coro.content = (heap x).map Coro.content) :
    (heap' x).map Coro.shadow = (heap x).map Coro.shadow := by
  have hx := congrArg (Option.map Prod.fst) hcontent
  rw [Option.map_map, Option.map_map] at hx
  exact hx

/-- Changing links only keeps what coroutines hold besides. -/
theorem of_content {heap' : CoroPtr → Option (Coro K L)} {head' : Option CoroPtr}
    {members' : List CoroPtr} (h : HeapRep heap head members threads schedCount running)
    (hcontent : ∀ x, (heap' x).map Coro.content = (heap x).map Coro.content)
    (hsub : ∀ c ∈ members', c ∈ members)
    (hsched : (heap' .sched).bind Coro.next = (heap .sched).bind Coro.next)
    (hlist : IsList (fun c => (heap' c).bind Coro.next) (fun c => (heap' c).bind Coro.prev) head'
      members') :
    HeapRep heap' head' members' threads schedCount running := by
  refine ⟨hlist, ?_, fun n => (same_shadow (hcontent _)).trans (h.node n), ?_⟩
  · obtain ⟨r, hr, hnext, hrshadow⟩ := h.sched
    obtain ⟨r', hr', hshadow, -⟩ := same_content (hcontent .sched) hr
    rw [hr', hr, Option.bind_some, Option.bind_some, hnext] at hsched
    exact ⟨r', hr', hsched, hshadow.trans hrshadow⟩
  · intro c hc hrun l n ht
    obtain ⟨r, hr, hres⟩ := h.ready c (hsub c hc) hrun l n ht
    obtain ⟨r', hr', -, hres'⟩ := same_content (hcontent c) hr
    exact ⟨r', hr', (hres' c).trans hres⟩

/-- A finished member is taken out of the list. -/
theorem take {i : Nat} (h : HeapRep heap head members threads schedCount running)
    (hnodes : CoroPtr.sched ∉ members)
    (hsome : ∀ c ∈ members, ∃ r, heap c = some r) (hi : .node i ∈ members) {r : Coro K L}
    (hr : heap (.node i) = some r) :
    (∀ p, r.prev = some p → ∃ q, heap p = some q) ∧
    (∀ n, r.next = some n → ∃ q, heap n = some q) ∧
    HeapRep (unlink heap r) (if r.prev = none then r.next else head) (members.erase (.node i))
      threads schedCount running := by
  have hrep : ListRep heap head members := ⟨h.list, hsome⟩
  have hp : ∀ p, r.prev = some p → ∃ q, heap p = some q := fun p he =>
    hsome p (hrep.prev_mem hi hr he)
  have hn : ∀ n, r.next = some n → ∃ q, heap n = some q := fun n he =>
    hsome n (hrep.next_mem hi hr he)
  refine ⟨hp, hn, h.of_content ?_ (fun c hc => List.mem_of_mem_erase hc) ?_
    (hrep.delete hi hr).list⟩
  · exact unlink_content
  · rw [unlink_next hp, if_neg (fun he => hnodes (hrep.prev_mem hi hr he))]

/-- A new coroutine is added in front. -/
theorem create {b : Nat} (h : HeapRep heap head members threads schedCount running)
    (hsome : ∀ c ∈ members, ∃ r, heap c = some r) (hb : .node b ∉ members) {r : Coro K L} {l : L}
    (hshadow : r.shadow = (⟨.ready l, 0⟩ : Thread L).shadow)
    (hres : r.resumes (.node b) = some l) :
    (∀ d, head = some d → ∃ q, heap d = some q) ∧
    HeapRep (link heap (.node b) r head) (some (.node b)) (.node b :: members)
      (Function.update threads (.node b) (some ⟨.ready l, 0⟩)) schedCount running := by
  have hrep : ListRep heap head members := ⟨h.list, hsome⟩
  have hold : ∀ x, x ≠ .node b → (link heap (.node b) r head x).map Coro.content
      = (heap x).map Coro.content := by
    intro x hx
    rw [link_content, Function.update_of_ne hx]
  refine ⟨fun d hd => hsome d (hrep.head_mem hd), (hrep.add hb).list, ?_, ?_, ?_⟩
  · obtain ⟨q, hq, hqnext, hqshadow⟩ := h.sched
    obtain ⟨q', hq', hshadow', -⟩ := same_content (hold .sched (by simp)) hq
    have hnext : (link heap (.node b) r head .sched).bind Coro.next = _ := link_next .sched
    rw [hq', if_neg (by simp), hq, Option.bind_some, Option.bind_some, hqnext] at hnext
    exact ⟨q', hq', hnext, hshadow'.trans hqshadow⟩
  · intro n
    by_cases hn : (CoroPtr.node n) = .node b
    · rw [hn, same_shadow (link_content _), Function.update_self, Function.update_self,
        Option.map_some, Option.map_some, hshadow]
    · rw [same_shadow (hold _ hn), Function.update_of_ne hn]
      exact h.node n
  · intro c hc hrun l' n' ht
    by_cases hcb : c = .node b
    · rw [hcb, Function.update_self] at ht
      simp only [Option.some.injEq, Thread.mk.injEq, Status.ready.injEq] at ht
      have hself : Function.update heap (.node b) (some r) (.node b) = some r :=
        Function.update_self ..
      obtain ⟨q, hq, -, hqres⟩ := same_content (link_content _) hself
      exact ⟨q, by rw [hcb, hq], by rw [hcb, hqres, hres, ht.1]⟩
    · rw [Function.update_of_ne hcb] at ht
      obtain ⟨q, hq, hqres⟩ := h.ready c ((List.mem_cons.1 hc).resolve_left hcb) hrun l' n' ht
      obtain ⟨q', hq', -, hqres'⟩ := same_content (hold c hcb) hq
      exact ⟨q', hq', (hqres' c).trans hqres⟩

end HeapRep

end SysProg.Libcoro
