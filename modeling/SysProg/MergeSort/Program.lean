import SysProg.Coro.Termination
import SysProg.MergeSort.ExactlyOnce
import SysProg.MergeSort.Output

set_option autoImplicit false

/-! # The program (`1/solution/solution.c`)

`main` starts coroutines that run `intermediate`, waits for all of them and merges the arrays they
have sorted. It is user code of the coroutine library, so a run of the program is one of the library
model; the proofs follow the scheduler that the library refines, and the pool. -/

namespace SysProg.MergeSort

open Libcoro

/-! ## `main` -/

/-- Where `main` goes on. -/
inductive MainState where
  /-- At the head of the loop that starts the coroutines. -/
  | start (i : Nat)
  /-- At the head of the loop that waits for them. -/
  | wait
  /-- After `coro_sched_wait` has returned. -/
  | waited (c : Option CoroPtr)

/-- `main` from `coro_sched_init` on, for `coroParam` coroutines. What it prints, and the clock it
    reads for this, is left out. -/
def main (coroParam : Nat) (k : MainState) (mem : Mem) : C (MainCall MainState Local × Mem) :=
  match k with
  | .start i =>
    if i < coroParam then
      pure (.call (.new ⟨i, .start⟩ fun _ => .start (i + 1)),
        { mem with args := mem.args ++ [newArgs mem.files.length] })
    else pure (.wait .waited, mem)
  | .wait => pure (.wait .waited, mem)
  | .waited (some c) => pure (.call (.delete c .wait), mem)
  | .waited none => do
    let output ← writeResultToFile mem.blocks mem.numbers mem.arraysLength mem.files.length
    pure (.done, { mem with output := output })

def program (env : Env) (coroParam : Nat) : Program MainState Local Mem where
  main _ k mem := main coroParam k mem
  body view l mem := intermediate env view l mem

/-! ## The scheduler and the pool -/

/-- The coroutines `ths` of a pool are those of the scheduler `a`; the calls they have made and those
    they still can make are bounded. -/
structure Follows (env : Env) (vals : List (List Int)) (own : Owners) (ths : List (Option Local))
    (a : Sched MainState Local Mem) : Prop where
  pool : PoolInv env vals own ⟨a.mem, ths⟩
  brk : a.brk = ths.length
  ready : ∀ (j : Nat) l, ths[j]? = some (some l) ↔ ∃ n, a.threads (.node j) = some ⟨.ready l, n⟩
  member : ∀ (j : Nat) l, ths[j]? = some (some l) → .node j ∈ a.members
  bounded : calls a.trace + work vals own ths ≤ ths.length + work vals (fun _ => none) []
  waiting : none ∉ waits a.trace

/-- Where `main` is, and what it knows of the coroutines there. -/
def Stage (m : Nat) (ths : List (Option Local)) (a : Sched MainState Local Mem) : Prop :=
  match a.control with
  | .main (.start i) => i ≤ m ∧ ths.length = i ∧ a.mem.args.length = i
  | .main .wait => ths.length = m
  | .main (.waited none) => False
  | .main (.waited (some c)) => ths.length = m ∧ c ∈ waited a.trace ∧ c ∉ deleted a.trace
  | .wait k => ths.length = m ∧ k = .waited
  | .body _ k => ths.length = m ∧ k = .waited
  | .halted => False

/-- The coroutines have sorted all the files, and `main` goes on to merge them. -/
structure Waited (env : Env) (vals : List (List Int)) (a : Sched MainState Local Mem) : Prop where
  control : a.control = .main (.waited none)
  pool : ∃ own ths, PoolInv env vals own ⟨a.mem, ths⟩ ∧ ths ≠ [] ∧ ∀ t ∈ ths, t = none

/-- The scheduler goes on, still following the pool or with all files sorted. -/
def GoesOn (env : Env) (vals : List (List Int)) (m : Nat) (a : Sched MainState Local Mem) : Prop :=
  ∃ a', Run.Goes (Sched.step (program env m)) a a' ∧ (Waited env vals a' ∨
    ∃ own ths, Follows env vals own ths a' ∧ Stage m ths a')

section Steps

variable {env : Env} {vals : List (List Int)} {own : Owners} {ths : List (Option Local)} {m : Nat}
  {a a' : Sched MainState Local Mem}

theorem Follows.waiting_append (h : Follows env vals own ths a) {es : List Event}
    (hes : none ∉ waits es) : none ∉ waits (a.trace ++ es) := by
  rw [waits_append, List.mem_append]
  exact not_or.2 ⟨h.waiting, hes⟩

/-- What `Follows` depends on. -/
theorem Follows.congr (h : Follows env vals own ths a) (hmem : a'.mem = a.mem)
    (hbrk : a'.brk = a.brk) (hthreads : a'.threads = a.threads)
    (hmember : ∀ c ∈ a.members, a.isFinished c = false → c ∈ a'.members) (es : List Event)
    (htrace : a'.trace = a.trace ++ es) (hcalls : calls es = 0) (hwaits : none ∉ waits es) :
    Follows env vals own ths a' := by
  refine ⟨hmem ▸ h.pool, hbrk.trans h.brk, hthreads ▸ h.ready, ?member, ?bounded, ?waiting⟩
  case member =>
    intro j l hl
    obtain ⟨n, hn⟩ := (h.ready j l).1 hl
    refine hmember _ (h.member j l hl) ?_
    rw [Sched.isFinished_eq hn]
    rfl
  case bounded =>
    have hold := h.bounded
    rw [htrace, calls_append, hcalls]
    exact hold
  case waiting =>
    rw [htrace]
    exact h.waiting_append hwaits

/-- Nothing is ready when there are no members. -/
theorem Follows.done (h : Follows env vals own ths a) (hmembers : a.members = []) :
    ∀ t ∈ ths, t = none := by
  intro t ht
  obtain ⟨j, hj⟩ := List.mem_iff_getElem?.1 ht
  cases t with
  | none => rfl
  | some l =>
      have hmem := h.member j l hj
      rw [hmembers] at hmem
      cases hmem

/-- A coroutine is created. -/
theorem Follows.spawn (h : Follows env vals own ths a) (hargs : a.mem.args.length = ths.length)
    (hmem : a'.mem = (Pool.spawn ⟨a.mem, ths⟩).mem) (hbrk : a'.brk = a.brk + 1)
    (hmembers : a'.members = .node a.brk :: a.members)
    (hthreads : a'.threads
      = Function.update a.threads (.node a.brk) (some ⟨.ready ⟨ths.length, .start⟩, 0⟩))
    (htrace : a'.trace = a.trace ++ [.new (.node a.brk)]) :
    Follows env vals own (ths ++ [some ⟨ths.length, .start⟩]) a' := by
  have hpool : PoolInv env vals own (Pool.spawn ⟨a.mem, ths⟩) := h.pool.spawn hargs
  rw [h.brk] at hmembers hthreads
  refine ⟨?pool, ?brk, ?ready, ?member, ?bounded, ?waiting⟩
  case pool =>
    rw [hmem]
    exact hpool
  case brk => rw [hbrk, h.brk, List.length_append, List.length_singleton]
  case ready =>
    intro j l
    rw [getElem?_spawn, hthreads]
    by_cases hj : j = ths.length
    · subst hj
      simp
    · rw [if_neg hj, Function.update_of_ne (fun heq => hj (CoroPtr.node.inj heq))]
      exact h.ready j l
  case member =>
    intro j l hl
    rw [getElem?_spawn] at hl
    rw [hmembers]
    by_cases hj : j = ths.length
    · rw [hj]
      exact List.mem_cons_self ..
    · rw [if_neg hj] at hl
      exact List.mem_cons_of_mem _ (h.member j l hl)
  case bounded =>
    have hold := h.bounded
    have hone : calls [.new (.node a.brk)] = 1 := rfl
    have hwork : work vals own (ths ++ [some ⟨ths.length, .start⟩]) = work vals own ths := by
      simp [work, pending]
    rw [htrace, calls_append, hone, hwork, List.length_append, List.length_singleton]
    omega
  case waiting =>
    rw [htrace]
    exact h.waiting_append (by simp [waits])

/-- A coroutine is deleted. -/
theorem Follows.delete (h : Follows env vals own ths a) {c : CoroPtr} (hc : c ∉ a.members)
    (hmem : a'.mem = a.mem) (hbrk : a'.brk = a.brk) (hmembers : a'.members = a.members)
    (hthreads : a'.threads = Function.update a.threads c none)
    (htrace : a'.trace = a.trace ++ [.delete c]) : Follows env vals own ths a' := by
  refine ⟨hmem ▸ h.pool, hbrk.trans h.brk, ?ready, hmembers ▸ h.member, ?bounded, ?waiting⟩
  case ready =>
    intro j l
    rw [hthreads]
    by_cases hj : .node j = c
    · have hnot : ths[j]? ≠ some (some l) := fun hl => hc (hj ▸ h.member j l hl)
      rw [← hj, Function.update_self]
      simp [hnot]
    · rw [Function.update_of_ne hj]
      exact h.ready j l
  case bounded =>
    have hold := h.bounded
    have hzero : calls [.delete c] = 0 := rfl
    rw [htrace, calls_append, hzero]
    omega
  case waiting =>
    rw [htrace]
    exact h.waiting_append (by simp [waits])

/-- The coroutine `j` goes on to `t`. -/
theorem Follows.run {own' : Owners} {j : Nat} {l : Local} {n : Int} {t : Option Local} {mem : Mem}
    (h : Follows env vals own ths a) (hl : ths[j]? = some (some l))
    (hpool : PoolInv env vals own' ⟨mem, ths.set j t⟩)
    (hwork : work vals own' (ths.set j t) + yields t ≤ work vals own ths)
    (hmem : a'.mem = mem) (hbrk : a'.brk = a.brk) (hmembers : a'.members = a.members)
    (hthreads : a'.threads = Function.update a.threads (.node j)
      (some ⟨t.elim (.finished 0) .ready, n⟩))
    (e : Event) (htrace : a'.trace = a.trace ++ [e]) (hcalls : calls [e] = yields t)
    (hwaits : none ∉ waits [e]) : Follows env vals own' (ths.set j t) a' := by
  have hj := PoolInv.lt_of_get hl
  refine ⟨hmem ▸ hpool, ?brk, ?ready, ?member, ?bounded, ?waiting⟩
  case brk => rw [hbrk, h.brk, List.length_set]
  case ready =>
    intro j' l'
    rw [hthreads]
    by_cases hjj : j = j'
    · subst hjj
      rw [List.getElem?_set_self hj, Function.update_self]
      cases t <;> simp
    · rw [List.getElem?_set_ne hjj,
        Function.update_of_ne (fun heq => hjj (CoroPtr.node.inj heq).symm)]
      exact h.ready j' l'
  case member =>
    intro j' l' hl'
    rw [hmembers]
    rcases PoolInv.get_set hl' with ⟨rfl, -⟩ | ⟨-, hl'⟩
    · exact h.member j l hl
    · exact h.member j' l' hl'
  case bounded =>
    have hold := h.bounded
    rw [htrace, calls_append, hcalls, List.length_set]
    omega
  case waiting =>
    rw [htrace]
    exact h.waiting_append hwaits

/-- Control passes on within a round. -/
theorem Follows.switchTo (h : Follows env vals own ths a) (k : Option CoroPtr → MainState)
    (d : Option CoroPtr) : Follows env vals own ths (a.switchTo k d) := by
  cases d with
  | none => exact h.congr rfl rfl rfl (fun _ hd _ => hd) [.switch .sched] rfl rfl (by simp [waits])
  | some d => exact h.congr rfl rfl rfl (fun _ hd _ => hd) [.switch d] rfl rfl (by simp [waits])

theorem stage_switchTo (hlen : ths.length = m) (d : Option CoroPtr) :
    Stage m ths (a.switchTo .waited d) := by
  cases d with
  | none => exact ⟨hlen, rfl⟩
  | some d => exact ⟨hlen, rfl⟩

/-! ## Steps of the program -/

/-- `main` starts a coroutine. -/
theorem Follows.goesOn_start (h : Follows env vals own ths a)
    (hctl : a.control = .main (.start ths.length)) (hargs : a.mem.args.length = ths.length)
    (hlt : ths.length < m) : GoesOn env vals m a := by
  have hmain : main m (.start ths.length) a.mem
      = pure (.call (.new ⟨ths.length, .start⟩ fun _ => .start (ths.length + 1)),
        (Pool.spawn ⟨a.mem, ths⟩).mem) := by
    rw [main, if_pos hlt]
    rfl
  have hgoes := Sched.step_main (P := program env m) hctl hmain rfl
  refine ⟨_, hgoes, Or.inr ⟨own, _, h.spawn hargs rfl rfl rfl rfl rfl, hlt, ?length, ?args⟩⟩
  case length => rw [List.length_append, List.length_singleton]
  case args =>
    simp only [Sched.create, Pool.spawn, List.length_append, List.length_singleton, hargs]

/-- `main` waits, or starts a round of the coroutines. -/
theorem Follows.goesOn_wait (h : Follows env vals own ths a) (ha : a.Inv)
    (hctl : a.control = .wait .waited) (hlen : ths.length = m) (hm : 1 ≤ m) :
    GoesOn env vals m a := by
  refine ⟨a.wait .waited, by rw [Run.Goes, Sched.step, hctl]; rfl, ?_⟩
  unfold Sched.wait
  split
  · next c hfind =>
      -- a coroutine has returned
      have hc := List.mem_of_find?_eq_some hfind
      have hfin := List.find?_some hfind
      have hkeep : ∀ d ∈ a.members, a.isFinished d = false → d ∈ a.members.erase c := by
        intro d hd hdfin
        refine (List.mem_erase_of_ne ?_).2 hd
        rintro rfl
        rw [hfin] at hdfin
        cases hdfin
      refine Or.inr ⟨own, ths, h.congr rfl rfl rfl hkeep [.wait (some (c, true, a.retOf c))] rfl rfl
        (by simp [waits]), hlen, ?_, ?_⟩
      · simp [waited]
      · have hnot : c ∉ deleted a.trace := fun hd =>
          ha.book.not_waited hc (ha.book.deleted_waited c hd)
        simpa [deleted] using hnot
  · split
    · next hnil =>
        -- all of them have
        refine Or.inl ⟨rfl, own, ths, h.pool, ?_, h.done hnil⟩
        rintro rfl
        simp at hlen
        omega
    · next c rest hcons =>
        exact Or.inr ⟨own, ths, h.congr rfl rfl rfl (fun _ hd _ => hd) [.switch c] rfl rfl
          (by simp [waits]), hlen, rfl⟩

/-- `main` deletes a coroutine. -/
theorem Follows.goesOn_delete (h : Follows env vals own ths a) (ha : a.Inv) {c : CoroPtr}
    (hctl : a.control = .main (.waited (some c))) (hlen : ths.length = m) (hc : c ∈ waited a.trace)
    (hnot : c ∉ deleted a.trace) : GoesOn env vals m a := by
  have hmember : c ∉ a.members := fun hmem => ha.book.not_waited hmem hc
  have hdelete : Sched.mainCall a (.call (.delete c .wait)) = pure { a with
      threads := Function.update a.threads c none
      trace := a.trace ++ [.delete c]
      control := .main .wait } := by
    rw [Sched.mainCall, Sched.delete, if_pos ⟨hc, hnot⟩]
    rfl
  have hgoes := Sched.step_main (P := program env m) hctl rfl hdelete
  exact ⟨_, hgoes, Or.inr ⟨own, ths, h.delete hmember rfl rfl rfl rfl rfl, hlen⟩⟩

/-- The body of a coroutine runs to its next `coro_yield` or to its end. -/
theorem Follows.goesOn_body (h : Follows env vals own ths a) (ha : a.Inv) {c : CoroPtr}
    (hctl : a.control = .body c .waited) (hlen : ths.length = m) : GoesOn env vals m a := by
  obtain ⟨l, n, ht⟩ := ha.ready hctl
  obtain ⟨j, rfl, -⟩ := ha.book.created_node (ha.book.member_created (ha.running _ _ hctl).1)
  have hl := (h.ready j l).2 ⟨n, ht⟩
  have hshows : Shows a.view j := by
    refine ⟨?_, n, ?_⟩
    · rw [Sched.view, Sched.this, hctl]
    · simp only [Sched.view, Sched.look, ht]
  obtain ⟨t, mem, own', hrun, hpool, hwork⟩ := intermediate_run h.pool hl hshows
  have hlen' : (ths.set j t).length = m := by rw [List.length_set, hlen]
  cases t with
  | none =>
      have hgoes := Sched.step_body (P := program env m) hctl ht hrun rfl
      have hnext : Follows env vals own' (ths.set j none)
          ((Sched.setThread { a with mem := mem } (.node j) ⟨.finished 0, n⟩).log
            [.ret (.node j) 0]) :=
        h.run hl hpool hwork rfl rfl rfl rfl (.ret (.node j) 0) rfl rfl (by simp [waits])
      exact ⟨_, hgoes, Or.inr ⟨own', _, hnext.switchTo _ none, stage_switchTo hlen' none⟩⟩
  | some l' =>
      have hgoes := Sched.step_body (P := program env m) hctl ht hrun rfl
      have hnext : Follows env vals own' (ths.set j (some l'))
          ((Sched.setThread { a with mem := mem } (.node j) ⟨.ready l', n + 1⟩).log
            [.yield (.node j)]) :=
        h.run hl hpool hwork rfl rfl rfl rfl (.yield (.node j)) rfl rfl (by simp [waits])
      exact ⟨_, hgoes, Or.inr ⟨own', _, hnext.switchTo _ _, stage_switchTo hlen' _⟩⟩

/-- **The program goes on** until all files are sorted. -/
theorem Follows.goesOn (h : Follows env vals own ths a) (ha : a.Inv) (hstage : Stage m ths a)
    (hm : 1 ≤ m) : GoesOn env vals m a := by
  have hwait : ∀ k, a.control = .main k → main m k a.mem = pure (.wait .waited, a.mem) →
      ths.length = m → GoesOn env vals m a := by
    intro k hctl hmain hlen
    refine ⟨_, Sched.step_main (P := program env m) hctl hmain rfl, Or.inr ⟨own, ths, ?_, hlen, rfl⟩⟩
    exact h.congr rfl rfl rfl (fun _ hd _ => hd) [] (List.append_nil _).symm rfl (by simp [waits])
  rw [Stage] at hstage
  cases hctl : a.control with
  | halted =>
      rw [hctl] at hstage
      exact hstage.elim
  | wait k =>
      rw [hctl] at hstage
      obtain ⟨hlen, rfl⟩ := hstage
      exact h.goesOn_wait ha hctl hlen hm
  | body c k =>
      rw [hctl] at hstage
      obtain ⟨hlen, rfl⟩ := hstage
      exact h.goesOn_body ha hctl hlen
  | main k =>
      rw [hctl] at hstage
      rcases k with i | _ | _ | c
      case start =>
        obtain ⟨hle, rfl, hargs⟩ := hstage
        rcases Nat.lt_or_eq_of_le hle with hlt | heq
        · exact h.goesOn_start hctl hargs hlt
        · exact hwait _ hctl (if_neg (by omega)) heq
      case wait => exact hwait _ hctl rfl hstage
      case waited.none => exact hstage.elim
      case waited.some =>
        obtain ⟨hlen, hc, hnot⟩ := hstage
        exact h.goesOn_delete ha hctl hlen hc hnot

theorem Stage.length_le (h : Stage m ths a) : ths.length ≤ m := by
  rw [Stage] at h
  split at h
  · exact h.2.1.trans_le h.1
  · exact h.le
  · exact h.elim
  · exact h.1.le
  · exact h.1.le
  · exact h.1.le
  · exact h.elim

end Steps

/-! ## Runs of the program -/

/-- The array `numbers[i]` points to. -/
def Mem.row (mem : Mem) (p : Option Nat) : List Int := (p.bind fun b => mem.blocks[b]?).getD []

/-- The files hold `vals`: texts of at least one and fewer than `2 ^ 30` integers. -/
def Contents (env : Env) (names : List (List CChar)) (vals : List (List Int)) : Prop :=
  List.Forall₂ (fun name vs => ∃ text, env.content name = some text ∧ IntText text vs ∧ vs ≠ [] ∧
    vs.length < 2 ^ 30) names vals

section Runs

variable {env : Env} {names : List (List CChar)} {vals : List (List Int)}

theorem Contents.holds (h : Contents env names vals) : Holds env names vals := by
  refine h.imp ?_
  rintro name vs ⟨text, hopen, htext, hne, hsmall⟩
  exact ⟨⟨_, readFile_text hopen htext hne hsmall⟩, hsmall⟩

theorem Contents.ne_nil (h : Contents env names vals) : ∀ vs ∈ vals, vs ≠ [] := by
  induction h with
  | nil => exact fun _ hvs => absurd hvs List.not_mem_nil
  | cons hfile _ ih =>
      obtain ⟨_, -, -, hne, -⟩ := hfile
      exact List.forall_mem_cons.2 ⟨hne, ih⟩

theorem first_ne_nil {rows : List (List Int)} (h : List.Forall₂ List.Perm rows vals)
    (hne : vals ≠ []) (hall : ∀ vs ∈ vals, vs ≠ []) : ∃ r, rows[0]? = some r ∧ r ≠ [] := by
  cases h with
  | nil => exact absurd rfl hne
  | cons hperm _ =>
      refine ⟨_, rfl, ?_⟩
      rintro rfl
      exact hall _ (List.mem_cons_self ..) hperm.nil_eq.symm

/-- The arrays of the files, once they are sorted. -/
theorem Waited.rows {a : Sched MainState Local Mem} (h : Waited env vals a) :
    a.mem.files.length = (a.mem.numbers.map a.mem.row).length ∧
    RowsAt a.mem.blocks a.mem.numbers a.mem.arraysLength (a.mem.numbers.map a.mem.row) ∧
    (∀ r ∈ a.mem.numbers.map a.mem.row, r.Pairwise (· ≤ ·)) ∧
    List.Forall₂ List.Perm (a.mem.numbers.map a.mem.row) vals := by
  obtain ⟨own, ths, hinv, hne, hdone⟩ := h.pool
  have hfirst := List.getElem?_eq_getElem (List.length_pos_iff.2 hne)
  rw [hdone _ (List.getElem_mem _)] at hfirst
  have hlen : (a.mem.numbers.map a.mem.row).length = vals.length := by
    rw [List.length_map, hinv.numbers_length]
  -- what is known of row `i`
  have hrow : ∀ (i : Nat) r, (a.mem.numbers.map a.mem.row)[i]? = some r → ∃ vs b,
      vals[i]? = some vs ∧ a.mem.numbers[i]? = some (some b) ∧ a.mem.blocks[b]? = some r ∧
      r.Pairwise (· ≤ ·) ∧ r.Perm vs ∧ a.mem.arraysLength[i]? = some (vs.length : Int) := by
    intro i r hr
    have hi : i < vals.length := hlen ▸ PoolInv.lt_of_get hr
    have hvs := List.getElem?_eq_getElem hi
    obtain ⟨j, b, r', -, hb, hblock, hsorted, hperm, hsize⟩ :=
      hinv.sorted hdone hvs (hinv.finished 0 hfirst i hi)
    rw [List.getElem?_map, hb, Option.map_some] at hr
    obtain rfl : r' = r := by
      have hget : a.mem.row (some b) = r := Option.some.inj hr
      rw [← hget, Mem.row]
      simp [hblock]
    exact ⟨_, b, hvs, hb, hblock, hsorted, hperm, hsize⟩
  refine ⟨hinv.files_length.trans hlen.symm, ⟨?small, ?size, ?row⟩, ?sorted, ?values⟩
  case small =>
    intro r hr
    obtain ⟨i, hi⟩ := List.mem_iff_getElem?.1 hr
    obtain ⟨vs, b, hvs, -, -, -, hperm, -⟩ := hrow i r hi
    have hsmall := hinv.small i vs hvs
    rw [hperm.length_eq]
    omega
  case size =>
    intro i r hr
    obtain ⟨vs, b, -, -, -, -, hperm, hsize⟩ := hrow i r hr
    rw [hsize, hperm.length_eq]
  case row =>
    intro i r hr _
    obtain ⟨vs, b, -, hb, hblock, -⟩ := hrow i r hr
    exact ⟨b, hb, hblock⟩
  case sorted =>
    intro r hr
    obtain ⟨i, hi⟩ := List.mem_iff_getElem?.1 hr
    obtain ⟨vs, b, -, -, -, hsorted, -⟩ := hrow i r hi
    exact hsorted
  case values =>
    refine List.forall₂_iff_get.2 ⟨hlen, fun i hi hi' => ?_⟩
    obtain ⟨vs, b, hvs, -, -, -, hperm, -⟩ := hrow i _ (List.getElem?_eq_getElem hi)
    obtain rfl := Option.some.inj ((List.getElem?_eq_getElem hi').symm.trans hvs)
    exact hperm

/-- The scheduler comes to the point where all files are sorted. -/
theorem reaches_waited (hread : Holds env names vals) {m : Nat} (hm : 1 ≤ m) :
    ∃ a, Run.Reaches (Sched.step (program env m)) (Sched.init (.start 0) (tables names)) a ∧
      Waited env vals a := by
  have hstart : Follows env vals (fun _ => none) [] (Sched.init (.start 0) (tables names)) :=
    ⟨tables_inv hread, rfl, by simp [Sched.init], by simp, by simp [Sched.init, calls],
      by simp [Sched.init, waits]⟩
  refine Run.reaches_goal _ (fun a => a.Inv ∧ ∃ own ths, Follows env vals own ths a ∧ Stage m ths a) _
    (Sched.rank (m + work vals (fun _ => none) [])) ?_
    ⟨Sched.inv_init _ _, _, _, hstart, Nat.zero_le m, rfl, rfl⟩
  rintro a ⟨ha, own, ths, h, hstage⟩
  obtain ⟨a', hgoes, hnext⟩ := h.goesOn ha hstage hm
  refine ⟨a', hgoes, hnext.imp_right ?_⟩
  rintro ⟨own', ths', h', hstage'⟩
  refine ⟨⟨Sched.step_inv ha hgoes, own', ths', h', hstage'⟩, ?_⟩
  refine (Sched.step_rank ha hgoes fun _ => ?_).resolve_left h'.waiting
  have hbound := h'.bounded
  have hlen := hstage'.length_le
  omega

/-- So does the library. -/
theorem library_waited (hread : Holds env names vals) {m : Nat} (hm : 1 ≤ m) :
    ∃ s, Libcoro.Reaches (program env m) (init (.start 0) (tables names)) s ∧
      s.point = .user (.main (.waited none)) := by
  obtain ⟨a, hreach, hwaited⟩ := reaches_waited hread hm
  obtain ⟨s, hs, hrep, -⟩ := Reaches.of_sched hreach
  have hpoint := hrep.point
  rw [PointRep, hwaited.control] at hpoint
  exact ⟨s, hs, hpoint⟩

/-- `main` merges the sorted files. -/
theorem Waited.merges {a : Sched MainState Local Mem} (h : Waited env vals a) (hne : vals ≠ [])
    (hall : ∀ vs ∈ vals, vs ≠ []) (m : Nat) :
    ∃ out, Run.Goes (Sched.step (program env m)) a
        { a with mem := { a.mem with output := out }, control := .halted } ∧
      out.Pairwise (· ≤ ·) ∧ out.Perm vals.flatten := by
  obtain ⟨hfiles, hrows, hsorted, hvals⟩ := h.rows
  obtain ⟨min, hmin⟩ := writeResultToFile_eq hrows (first_ne_nil hvals hne hall)
  obtain ⟨out, hrun, hasc, hperm⟩ := writeLoop_start hrows hsorted min
  have hmain : main m (.waited none) a.mem = pure (.done, { a.mem with output := out }) := by
    rw [main, hfiles, hmin, hrun]
    rfl
  exact ⟨out, Sched.step_main (P := program env m) h.control hmain rfl, hasc,
    hperm.trans (List.Perm.flatten_congr hvals)⟩

end Runs

/-- **The program sorts**: for any number of coroutines and of files, it ends with an output that is
    nondecreasing and a permutation of all the integers of the files. -/
theorem program_sorts (env : Env) (names : List (List CChar)) (vals : List (List Int))
    (hnames : names ≠ []) (hvals : Contents env names vals) (m : Nat) (hm : 1 ≤ m) :
    ∃ s, Libcoro.Reaches (program env m) (init (.start 0) (tables names)) s ∧ s.point = .halted ∧
      s.mem.output.Pairwise (· ≤ ·) ∧ s.mem.output.Perm vals.flatten := by
  obtain ⟨a, hreach, hwaited⟩ := reaches_waited hvals.holds hm
  have hne : vals ≠ [] := by
    have hlen := hvals.length_eq
    rintro rfl
    exact hnames (List.length_eq_zero_iff.1 hlen)
  obtain ⟨out, hgoes, hasc, hperm⟩ := hwaited.merges hne hvals.ne_nil m
  -- the library does what the scheduler does
  obtain ⟨s, hs, hrep, -⟩ := Reaches.of_sched (hreach.tail hgoes)
  have hmem : s.mem.output = out := congrArg Mem.output hrep.mem
  refine ⟨s, hs, hrep.point, ?_, ?_⟩
  · rw [hmem]
    exact hasc
  · rw [hmem]
    exact hperm

/-- Two coroutines sort the file `f` with the text `2 1`. -/
theorem program_sorts_oneFile :
    ∃ s, Libcoro.Reaches (program oneFile 2) (init (.start 0) (tables [ascii ['f']])) s ∧
      s.point = .halted ∧ s.mem.output.Pairwise (· ≤ ·) ∧
      s.mem.output.Perm ([[2, 1]] : List (List Int)).flatten := by
  have htwo : Numeral [50] (decimal [50]) := .plain (by decide) (by decide)
  have hone : Numeral [49] (decimal [49]) := .plain (by decide) (by decide)
  have hlast : IntText ([32] ++ [49] ++ []) [decimal [49]] :=
    .cons (by decide) hone (by decide) (by decide) (by simp) (.nil (by simp))
  have htext : IntText ([] ++ [50] ++ ([32] ++ [49] ++ [])) [decimal [50], decimal [49]] :=
    .cons (by simp) htwo (by decide) (by decide) (by rintro _ ⟨⟩; rfl) hlast
  have hcontents : Contents oneFile [ascii ['f']] [[2, 1]] :=
    .cons ⟨_, rfl, htext, by decide, by decide⟩ .nil
  exact program_sorts oneFile _ _ (by decide) hcontents 2 (by decide)

end SysProg.MergeSort
