import Mathlib.Data.List.Nodup
import SysProg.Coro.Heap

set_option autoImplicit false

/-! # Sequences of `coro_list_add` and `coro_list_delete`

The two functions splice nodes in and out of the list through its pointers. After any sequence of
calls of them the list is the one the calls describe: the nodes added and not deleted since, the last
added first. -/

namespace SysProg.Libcoro

open LinkedList

variable {K L M : Type}

/-! ## Calls -/

inductive ListOp where
  | add (c : CoroPtr)
  | delete (c : CoroPtr)
deriving DecidableEq, Repr

def ListOp.call (s : State K L M) : ListOp → Lib (State K L M)
  | .add c => coroListAdd s c
  | .delete c => coroListDelete s c

def listCalls (s : State K L M) : List ListOp → Lib (State K L M)
  | [] => pure s
  | op :: ops => do
    let s ← op.call s
    listCalls s ops

/-! ## What the calls describe -/

/-- The members after a call. -/
def ListOp.members (op : ListOp) (members : List CoroPtr) : List CoroPtr :=
  match op with
  | .add c => c :: members
  | .delete c => members.erase c

/-- A node is added when it is no member, and deleted when it is one. -/
def ListOp.Allowed (op : ListOp) (members : List CoroPtr) : Prop :=
  match op with
  | .add c => c ∉ members
  | .delete c => c ∈ members

/-- All calls are allowed, one after the other. -/
def AllAllowed : List CoroPtr → List ListOp → Prop
  | _, [] => True
  | members, op :: ops => op.Allowed members ∧ AllAllowed (op.members members) ops

instance (op : ListOp) (members : List CoroPtr) : Decidable (op.Allowed members) :=
  match op with
  | .add c => inferInstanceAs (Decidable (c ∉ members))
  | .delete c => inferInstanceAs (Decidable (c ∈ members))

instance decidableAllAllowed : ∀ members ops, Decidable (AllAllowed members ops)
  | _, [] => .isTrue trivial
  | members, op :: ops =>
    have := decidableAllAllowed (op.members members) ops
    inferInstanceAs (Decidable (op.Allowed members ∧ AllAllowed (op.members members) ops))

/-- The nodes that calls add and do not delete later, the last added first. -/
def survivors : List ListOp → List CoroPtr
  | [] => []
  | .add c :: ops => survivors ops ++ if .delete c ∈ ops then [] else [c]
  | .delete _ :: ops => survivors ops

theorem members_nodup {op : ListOp} {members : List CoroPtr} (h : op.Allowed members)
    (hnodup : members.Nodup) : (op.members members).Nodup := by
  cases op with
  | add c => exact List.nodup_cons.2 ⟨h, hnodup⟩
  | delete c => exact hnodup.erase c

/-- The members after all calls are the survivors, and behind them the old members that no call
    deletes. -/
theorem foldl_members {members : List CoroPtr} {ops : List ListOp} (h : AllAllowed members ops)
    (hnodup : members.Nodup) :
    ops.foldl (fun members op => op.members members) members
      = survivors ops ++ members.filter fun c => .delete c ∉ ops := by
  induction ops generalizing members with
  | nil => simp [survivors]
  | cons op ops ih =>
      obtain ⟨hop, hops⟩ := h
      rw [List.foldl_cons, ih hops (members_nodup hop hnodup)]
      cases op with
      | add c =>
          have hkeep : (members.filter fun d => decide (.delete d ∉ ListOp.add c :: ops))
              = members.filter fun d => decide (.delete d ∉ ops) :=
            List.filter_congr fun d _ => by simp
          rw [hkeep, ListOp.members, survivors, List.append_assoc]
          by_cases hc : .delete c ∈ ops
          · simp [hc]
          · simp [hc]
      | delete c =>
          have hkeep : ((members.erase c).filter fun d => decide (.delete d ∉ ops))
              = members.filter fun d => decide (.delete d ∉ ListOp.delete c :: ops) := by
            rw [hnodup.erase_eq_filter, List.filter_filter]
            refine List.filter_congr fun d _ => ?_
            by_cases hdc : d = c
            · simp [hdc]
            · simp [hdc]
          rw [ListOp.members, hkeep, survivors]

theorem foldl_members_empty {ops : List ListOp} (h : AllAllowed [] ops) :
    ops.foldl (fun members op => op.members members) [] = survivors ops := by
  rw [foldl_members h List.nodup_nil, List.filter_nil, List.append_nil]

/-! ## The calls do what they describe -/

/-- The list of a state is `members`. -/
def State.Lists (s : State K L M) (members : List CoroPtr) : Prop :=
  ListRep s.heap s.coroList members

/-- `coro_list_add` of a node that is no member ends, and puts it in front. -/
theorem coroListAdd_lists {s : State K L M} {members : List CoroPtr} (h : s.Lists members)
    {c : CoroPtr} (hc : c ∉ members) (hnode : ∃ r, s.heap c = some r) :
    ∃ s', coroListAdd s c = pure s' ∧ s'.Lists (c :: members) ∧
      ∀ x, (s'.heap x).map Coro.content = (s.heap x).map Coro.content := by
  obtain ⟨r, hr⟩ := hnode
  have hself : s.heap = Function.update s.heap c (some r) := by
    rw [← hr, Function.update_eq_self]
  have hrun := coroListAdd_run hself fun d hd => h.stored d (h.head_mem hd)
  refine ⟨_, hrun, h.add hc, fun x => ?_⟩
  rw [link_content, ← hself]

/-- `coro_list_delete` of a member ends, and takes it out. -/
theorem coroListDelete_lists {s : State K L M} {members : List CoroPtr} (h : s.Lists members)
    {c : CoroPtr} (hc : c ∈ members) :
    ∃ s', coroListDelete s c = pure s' ∧ s'.Lists (members.erase c) ∧
      ∀ x, (s'.heap x).map Coro.content = (s.heap x).map Coro.content := by
  obtain ⟨r, hr⟩ := h.stored c hc
  have hrun := coroListDelete_run hr (fun p hp => h.stored p (h.prev_mem hc hr hp))
    fun n hn => h.stored n (h.next_mem hc hr hn)
  exact ⟨_, hrun, h.delete hc hr, unlink_content⟩

/-- One allowed call. -/
theorem call_lists {s : State K L M} {members : List CoroPtr} (h : s.Lists members) {op : ListOp}
    (hop : op.Allowed members) (hnode : ∀ c, op = .add c → ∃ r, s.heap c = some r) :
    ∃ s', op.call s = pure s' ∧ s'.Lists (op.members members) ∧
      ∀ x, (s'.heap x).map Coro.content = (s.heap x).map Coro.content := by
  cases op with
  | add c => exact coroListAdd_lists h hop (hnode c rfl)
  | delete c => exact coroListDelete_lists h hop

/-- Any number of allowed calls. -/
theorem listCalls_lists {s : State K L M} {members : List CoroPtr} (h : s.Lists members)
    {ops : List ListOp} (hops : AllAllowed members ops)
    (hnode : ∀ c, .add c ∈ ops → ∃ r, s.heap c = some r) :
    ∃ s', listCalls s ops = pure s' ∧
      s'.Lists (ops.foldl (fun members op => op.members members) members) := by
  induction ops generalizing s members with
  | nil => exact ⟨s, rfl, h⟩
  | cons op ops ih =>
      obtain ⟨hop, hops⟩ := hops
      obtain ⟨t, hcall, hlists, hcontent⟩ := call_lists h hop fun c hc =>
        hnode c (hc ▸ List.mem_cons_self ..)
      obtain ⟨s', hcalls, hlists'⟩ := ih hlists hops fun c hc =>
        stored_of_content (hcontent c) (hnode c (List.mem_cons_of_mem _ hc))
      exact ⟨s', by rw [listCalls, hcall, pure_bind, hcalls], hlists'⟩

/-! ## Walking along the list -/

/-- `c->next`. -/
def State.nextOf (s : State K L M) (c : CoroPtr) : Lib (Option CoroPtr) := do
  let r ← s.get c
  pure r.next

/-- `c->prev`. -/
def State.prevOf (s : State K L M) (c : CoroPtr) : Lib (Option CoroPtr) := do
  let r ← s.get c
  pure r.prev

/-- The pointer `n` steps along `next` from `coro_list`. -/
def State.walk (s : State K L M) : Nat → Lib (Option CoroPtr)
  | 0 => pure s.coroList
  | n + 1 => do
    match ← s.walk n with
    | some c => s.nextOf c
    | none => pure none

namespace State.Lists

variable {s : State K L M} {members : List CoroPtr}

theorem nextOf_eq (h : s.Lists members) {c : CoroPtr} (hc : c ∈ members) :
    s.nextOf c = pure ((s.heap c).bind Coro.next) := by
  obtain ⟨r, hr⟩ := h.stored c hc
  simp only [State.nextOf, State.get, hr, pure_bind, Option.bind_some]

theorem prevOf_eq (h : s.Lists members) {c : CoroPtr} (hc : c ∈ members) :
    s.prevOf c = pure ((s.heap c).bind Coro.prev) := by
  obtain ⟨r, hr⟩ := h.stored c hc
  simp only [State.prevOf, State.get, hr, pure_bind, Option.bind_some]

/-- The walk visits the members in order, and then is at NULL. -/
theorem walk_eq (h : s.Lists members) (n : Nat) : s.walk n = pure members[n]? := by
  have hnth := h.list.linked.nth_eq
  induction n with
  | zero =>
      rw [State.walk, ← hnth 0]
      rfl
  | succ n ih =>
      rw [State.walk, ih, pure_bind, ← hnth (n + 1), nth, hnth n]
      cases hc : members[n]? with
      | none => rfl
      | some c => exact h.nextOf_eq (List.mem_of_getElem? hc)

theorem prevOf_head (h : s.Lists members) {c : CoroPtr} (hc : s.coroList = some c) :
    s.prevOf c = pure none := by
  rw [h.prevOf_eq (h.head_mem hc), h.list.linked.prev_head hc]

theorem nextOf_last (h : s.Lists members) {c : CoroPtr} (hc : members.getLast? = some c) :
    s.nextOf c = pure none := by
  rw [h.nextOf_eq (List.mem_of_getLast? hc), h.list.linked.next_last hc]

theorem prevOf_nextOf (h : s.Lists members) {c d : CoroPtr} (hc : c ∈ members)
    (hd : s.nextOf c = pure (some d)) : s.prevOf d = pure (some c) := by
  rw [h.nextOf_eq hc, lib_pure_inj] at hd
  rw [h.prevOf_eq (h.list.linked.next_mem hc hd), h.list.linked.prev_next hc hd]

end State.Lists

/-- **The coroutine list is a list**: after any sequence of allowed calls from the empty list,
    `next` leads from `coro_list` through exactly the nodes added and not deleted, the last added
    first and none twice, and ends in NULL; the head has no `prev`, and every node is the `prev` of
    its `next`. -/
theorem coroList_represents {s : State K L M} {ops : List ListOp} (hempty : s.coroList = none)
    (hops : AllAllowed [] ops) (hnode : ∀ c, .add c ∈ ops → ∃ r, s.heap c = some r) :
    ∃ s', listCalls s ops = pure s' ∧ (survivors ops).Nodup ∧
      (∀ n, s'.walk n = pure (survivors ops)[n]?) ∧
      (∀ c, s'.coroList = some c → s'.prevOf c = pure none) ∧
      (∀ c, (survivors ops).getLast? = some c → s'.nextOf c = pure none) ∧
      ∀ c ∈ survivors ops, ∀ d, s'.nextOf c = pure (some d) → s'.prevOf d = pure (some c) := by
  have hlists : s.Lists [] := ⟨⟨hempty, List.nodup_nil⟩, fun c hc => absurd hc (by simp)⟩
  obtain ⟨s', hrun, h⟩ := listCalls_lists hlists hops hnode
  rw [foldl_members_empty hops] at h
  exact ⟨s', hrun, h.list.nodup, h.walk_eq, fun c hc => h.prevOf_head hc,
    fun c hc => h.nextOf_last hc, fun c hc d hd => h.prevOf_nextOf hc hd⟩

/-- A library whose every pointer is that of a fresh coroutine, with an empty list. -/
def freshNodes : State Unit Unit Unit where
  heap := fun _ => some
    { ret := 0, func := none, ctx := .unset, isFinished := false, switchCount := 0, next := none,
      prev := none }
  coroThisPtr := none
  coroList := none
  isSchedWaiting := false
  brk := 0
  point := .halted
  mem := ()
  trace := []

/-- Three nodes are added, the middle one and the head deleted, and one of them added again. -/
theorem coroList_represents_three :
    ∃ s', listCalls freshNodes [.add (.node 0), .add (.node 1), .add (.node 2), .delete (.node 1),
        .delete (.node 2), .add (.node 1)] = pure s' ∧
      s'.walk 0 = pure (some (.node 1)) ∧ s'.walk 1 = pure (some (.node 0)) ∧
      s'.walk 2 = pure none := by
  have hops : AllAllowed [] [.add (.node 0), .add (.node 1), .add (.node 2), .delete (.node 1),
      .delete (.node 2), .add (.node 1)] := by decide
  obtain ⟨s', hrun, -, hwalk, -⟩ := coroList_represents (s := freshNodes) rfl hops
    fun c _ => ⟨_, rfl⟩
  exact ⟨s', hrun, hwalk 0, hwalk 1, hwalk 2⟩

end SysProg.Libcoro
