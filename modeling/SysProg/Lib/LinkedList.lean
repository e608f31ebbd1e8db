import Mathlib.Data.List.Nodup
import Mathlib.Logic.Function.Basic

set_option autoImplicit false

/-! # Doubly linked lists

A doubly linked list over nodes of a type `α` is two maps `next` and `prev` and a head. `Linked`
says which nodes a list visits; insertion at the head and removal of a node are the usual pointer
updates, and keep it. -/

namespace SysProg.LinkedList

variable {α : Type}

/-- From `head` on, whose predecessor is `before`, the links visit exactly `xs`. -/
def Linked (next prev : α → Option α) (before : Option α) : Option α → List α → Prop
  | head, [] => head = none
  | head, x :: xs => head = some x ∧ prev x = before ∧ Linked next prev (some x) (next x) xs

/-- The links from `head` are those of the list `xs`, without repetition. -/
structure IsList (next prev : α → Option α) (head : Option α) (xs : List α) : Prop where
  linked : Linked next prev none head xs
  nodup : xs.Nodup

theorem Linked.congr {next prev next' prev' : α → Option α} {before head : Option α}
    {xs : List α} (h : Linked next prev before head xs) (hnext : ∀ x ∈ xs, next' x = next x)
    (hprev : ∀ x ∈ xs, prev' x = prev x) : Linked next' prev' before head xs := by
  induction xs generalizing before head with
  | nil => exact h
  | cons x xs ih =>
      obtain ⟨hhead, hx, htail⟩ := h
      obtain ⟨hnx, hnxs⟩ := List.forall_mem_cons.1 hnext
      obtain ⟨hpx, hpxs⟩ := List.forall_mem_cons.1 hprev
      refine ⟨hhead, hpx.trans hx, ?_⟩
      rw [hnx]
      exact ih htail hnxs hpxs

theorem Linked.head_eq {next prev : α → Option α} {before head : Option α} {xs : List α}
    (h : Linked next prev before head xs) : head = xs.head? := by
  cases xs with
  | nil => exact h
  | cons x xs => exact h.1

theorem Linked.prev_head {next prev : α → Option α} {before head : Option α} {xs : List α}
    (h : Linked next prev before head xs) {x : α} (hx : head = some x) : prev x = before := by
  cases xs with
  | nil => cases hx.symm.trans h
  | cons y ys =>
      obtain ⟨hy, hprev, -⟩ := h
      rw [Option.some.inj (hx.symm.trans hy), hprev]

/-- The successor of a node is another node. -/
theorem Linked.next_mem {next prev : α → Option α} {before head : Option α} {xs : List α}
    (h : Linked next prev before head xs) {x y : α} (hx : x ∈ xs) (hy : next x = some y) :
    y ∈ xs := by
  induction xs generalizing before head with
  | nil => cases hx
  | cons z xs ih =>
      obtain ⟨-, -, htail⟩ := h
      rcases List.mem_cons.1 hx with rfl | hx
      · rw [htail.head_eq] at hy
        exact List.mem_cons_of_mem _ (List.mem_of_mem_head? hy)
      · exact List.mem_cons_of_mem _ (ih htail hx)

/-- The predecessor of a node is another node, but for the first, where it is `before`. -/
theorem Linked.prev_mem {next prev : α → Option α} {before head : Option α} {xs : List α}
    (h : Linked next prev before head xs) {x : α} (hx : x ∈ xs) :
    prev x = before ∨ ∃ y ∈ xs, prev x = some y := by
  induction xs generalizing before head with
  | nil => cases hx
  | cons z xs ih =>
      obtain ⟨-, hz, htail⟩ := h
      rcases List.mem_cons.1 hx with rfl | hx
      · exact Or.inl hz
      · rcases ih htail hx with hp | ⟨y, hy, hp⟩
        · exact Or.inr ⟨z, List.mem_cons_self .., hp⟩
        · exact Or.inr ⟨y, List.mem_cons_of_mem _ hy, hp⟩

/-- In a list without repetition no node is its own successor. -/
theorem IsList.next_ne {next prev : α → Option α} {head : Option α} {xs : List α}
    (h : IsList next prev head xs) {x y : α} (hx : x ∈ xs) (hy : next x = some y) : y ≠ x := by
  obtain ⟨hlink, hnodup⟩ := h
  generalize (none : Option α) = before at hlink
  induction xs generalizing before head with
  | nil => cases hx
  | cons z xs ih =>
      obtain ⟨-, -, htail⟩ := hlink
      obtain ⟨hz, hnodup⟩ := List.nodup_cons.1 hnodup
      rcases List.mem_cons.1 hx with rfl | hx
      · rw [htail.head_eq] at hy
        rintro rfl
        exact hz (List.mem_of_mem_head? hy)
      · exact ih hx hnodup _ htail

/-- The element after `c` in a list. -/
def succ [DecidableEq α] (c : α) : List α → Option α
  | [] => none
  | x :: xs => if x = c then xs.head? else succ c xs

theorem succ_mem [DecidableEq α] {c d : α} {xs : List α} (h : succ c xs = some d) : d ∈ xs := by
  induction xs with
  | nil => cases h
  | cons x xs ih =>
      rw [succ] at h
      split at h
      · exact List.mem_cons_of_mem _ (List.mem_of_mem_head? h)
      · exact List.mem_cons_of_mem _ (ih h)

/-- The element after `c` is the first one behind it. -/
theorem succ_append [DecidableEq α] {c : α} {xs : List α} (hc : c ∉ xs) (ys : List α) :
    succ c (xs ++ c :: ys) = ys.head? := by
  induction xs with
  | nil => rw [List.nil_append, succ, if_pos rfl]
  | cons x xs ih =>
      rw [List.mem_cons, not_or] at hc
      rw [List.cons_append, succ, if_neg (Ne.symm hc.1), ih hc.2]

/-- Following `next` is going to the next element. -/
theorem Linked.next_eq [DecidableEq α] {next prev : α → Option α} {before head : Option α}
    {xs : List α} (h : Linked next prev before head xs) {c : α} (hc : c ∈ xs) :
    next c = succ c xs := by
  induction xs generalizing before head with
  | nil => cases hc
  | cons x xs ih =>
      obtain ⟨-, -, htail⟩ := h
      rw [succ]
      by_cases hxc : x = c
      · subst hxc
        rw [if_pos rfl, htail.head_eq]
      · rw [if_neg hxc]
        exact ih htail ((List.mem_cons.1 hc).resolve_left (Ne.symm hxc))

/-! ## What the links show -/

/-- The node `n` steps from `head` on, if the list is that long. -/
def nth (next : α → Option α) (head : Option α) : Nat → Option α
  | 0 => head
  | n + 1 => (nth next head n).bind next

theorem nth_succ (next : α → Option α) (head : Option α) (n : Nat) :
    nth next head (n + 1) = nth next (head.bind next) n := by
  induction n with
  | zero => rfl
  | succ n ih =>
      rw [nth, ih]
      rfl

/-- Following `next` visits the nodes of the list in order. -/
theorem Linked.nth_eq {next prev : α → Option α} {before head : Option α} {xs : List α}
    (h : Linked next prev before head xs) (n : Nat) : nth next head n = xs[n]? := by
  induction xs generalizing before head n with
  | nil =>
      have hnone : ∀ n, nth next none n = none := by
        intro n
        induction n with
        | zero => rfl
        | succ n ih => rw [nth, ih, Option.bind_none]
      rw [show head = none from h, hnone, List.getElem?_nil]
  | cons x xs ih =>
      obtain ⟨rfl, -, htail⟩ := h
      cases n with
      | zero => rfl
      | succ n =>
          rw [nth_succ, Option.bind_some, ih htail n, List.getElem?_cons_succ]

/-- The predecessor of the successor of a node is this node. -/
theorem Linked.prev_next {next prev : α → Option α} {before head : Option α} {xs : List α}
    (h : Linked next prev before head xs) {x y : α} (hx : x ∈ xs) (hy : next x = some y) :
    prev y = some x := by
  induction xs generalizing before head with
  | nil => cases hx
  | cons z xs ih =>
      obtain ⟨-, -, htail⟩ := h
      rcases List.mem_cons.1 hx with rfl | hx
      · rw [hy] at htail
        cases xs with
        | nil => cases htail
        | cons w ws =>
            obtain ⟨hyw, hw, -⟩ := htail
            rw [Option.some.inj hyw, hw]
      · exact ih htail hx

/-- The last node has no successor. -/
theorem Linked.next_last {next prev : α → Option α} {before head : Option α} {xs : List α}
    (h : Linked next prev before head xs) {x : α} (hx : xs.getLast? = some x) : next x = none := by
  induction xs generalizing before head with
  | nil => cases hx
  | cons z xs ih =>
      obtain ⟨-, -, htail⟩ := h
      cases xs with
      | nil =>
          rw [← Option.some.inj hx]
          exact htail
      | cons w ws =>
          rw [List.getLast?_cons_cons] at hx
          exact ih htail hx

section Updates

variable [DecidableEq α]

/-- Inserting `c` at the head. -/
theorem IsList.insert {next prev : α → Option α} {head : Option α} {xs : List α}
    (h : IsList next prev head xs) {c : α} (hc : c ∉ xs) {next' prev' : α → Option α}
    (hnext : ∀ x, next' x = if x = c then head else next x)
    (hprev : ∀ x, prev' x = if head = some x then some c else if x = c then none else prev x) :
    IsList next' prev' (some c) (c :: xs) := by
  obtain ⟨hlink, hnodup⟩ := h
  have hne : ∀ x ∈ xs, x ≠ c := fun x hx he => hc (he ▸ hx)
  have hcc : head ≠ some c := by
    intro he
    rw [hlink.head_eq] at he
    exact hc (List.mem_of_mem_head? he)
  refine ⟨⟨rfl, by rw [hprev, if_neg hcc, if_pos rfl], ?_⟩, List.nodup_cons.2 ⟨hc, hnodup⟩⟩
  rw [hnext, if_pos rfl]
  cases xs with
  | nil => exact hlink
  | cons y ys =>
      obtain ⟨rfl, -, htail⟩ := hlink
      obtain ⟨hy, -⟩ := List.nodup_cons.1 hnodup
      refine ⟨rfl, by rw [hprev, if_pos rfl], ?_⟩
      rw [hnext, if_neg (hne y (List.mem_cons_self ..))]
      refine htail.congr ?_ ?_
      · intro x hx
        rw [hnext, if_neg (hne x (List.mem_cons_of_mem _ hx))]
      · intro x hx
        have hyx : some y ≠ some x := fun he => hy (Option.some.inj he ▸ hx)
        rw [hprev, if_neg hyx, if_neg (hne x (List.mem_cons_of_mem _ hx))]

/-- Removing `c`, in a stretch of a list whose predecessor `before` is not in it. -/
theorem Linked.erase {next prev : α → Option α} {c : α} {next' prev' : α → Option α}
    (hnext : ∀ x, next' x = if prev c = some x then next c else next x)
    (hprev : ∀ x, prev' x = if next c = some x then prev c else prev x) :
    ∀ {before head : Option α} {xs : List α}, Linked next prev before head xs → xs.Nodup →
      (∀ x ∈ xs, before ≠ some x) → c ∈ xs →
      Linked next' prev' before (if prev c = before then next c else head) (xs.erase c) := by
  intro before head xs h hnodup hbefore hc
  induction xs generalizing before head with
  | nil => cases hc
  | cons x xs ih =>
      obtain ⟨hhead, hx, htail⟩ := h
      obtain ⟨hnx, hnxs⟩ := List.nodup_cons.1 hnodup
      obtain ⟨hbx, hbxs⟩ := List.forall_mem_cons.1 hbefore
      by_cases hxc : x = c
      · subst hxc
        rw [List.erase_cons_head, if_pos hx]
        cases xs with
        | nil => exact htail
        | cons y ys =>
            obtain ⟨hny, hpy, hrest⟩ := htail
            obtain ⟨hyys, -⟩ := List.nodup_cons.1 hnxs
            refine ⟨hny, by rw [hprev, if_pos hny, hx], ?_⟩
            rw [hnext, if_neg (by rw [hx]; exact hbxs y (List.mem_cons_self ..))]
            refine hrest.congr ?_ ?_
            · intro z hz
              rw [hnext, if_neg (by rw [hx]; exact hbxs z (List.mem_cons_of_mem _ hz))]
            · intro z hz
              have hyz : some y ≠ some z := fun he => hyys (Option.some.inj he ▸ hz)
              rw [hprev, hny, if_neg hyz]
      · rcases List.mem_cons.1 hc with rfl | hcxs
        · exact absurd rfl hxc
        -- the predecessor of `c` is in the stretch, its successor is not `x`
        have hpc : prev c ≠ before := by
          rcases htail.prev_mem hcxs with hp | ⟨y, hy, hp⟩
          · rw [hp]
            exact Ne.symm hbx
          · rw [hp]
            exact Ne.symm (hbxs y hy)
        have hnc : next c ≠ some x := fun he => hnx (htail.next_mem hcxs he)
        rw [if_neg hpc, List.erase_cons_tail (by simpa using hxc)]
        refine ⟨hhead, by rw [hprev, if_neg hnc, hx], ?_⟩
        rw [hnext]
        exact ih htail hnxs (fun y hy he => hnx (Option.some.inj he ▸ hy)) hcxs

/-- Removing `c`. -/
theorem IsList.erase {next prev : α → Option α} {head : Option α} {xs : List α}
    (h : IsList next prev head xs) {c : α} (hc : c ∈ xs) {next' prev' : α → Option α}
    (hnext : ∀ x, next' x = if prev c = some x then next c else next x)
    (hprev : ∀ x, prev' x = if next c = some x then prev c else prev x) :
    IsList next' prev' (if prev c = none then next c else head) (xs.erase c) :=
  ⟨h.linked.erase hnext hprev h.nodup (by simp) hc, h.nodup.erase c⟩

end Updates

end SysProg.LinkedList
