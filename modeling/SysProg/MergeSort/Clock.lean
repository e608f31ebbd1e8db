import SysProg.MergeSort.Ledger

set_option autoImplicit false

/-! # Work times (`1/solution/solution.c`)

A slice is what a coroutine runs between a `siglongjmp` to it and its next `coro_yield` or its end.
The first reading of the clock in a slice is taken when the coroutine has got control, the last one
before it gives it up; `t_summary` adds up the times between the two. The slices of all coroutines
come one after the other, between the two readings `main` makes of the clock. -/

namespace SysProg.MergeSort

open Libcoro

/-! ## The clock of `main` -/

/-- `clock_gettime`, in nanoseconds. -/
def clockGettime (env : Env) (mem : Mem) : UInt64 × Mem :=
  (env.clock mem.ticks, { mem with ticks := mem.ticks + 1 })

/-- The times `main` has read. -/
structure MainTimes where
  startTime : UInt64
  middleTime : UInt64

/-- `main` up to the loop that starts the coroutines: it reads the clock when it starts and after
    `coro_sched_init`. -/
def mainStart (env : Env) (names : List (List CChar)) : MainTimes × Mem :=
  let (startTime, mem) := clockGettime env (tables names)
  let (middleTime, mem) := clockGettime env mem
  (⟨startTime, middleTime⟩, mem)

/-- The value of `middle_time` after all coroutines have been waited for. -/
def middleTime (env : Env) (times : MainTimes) (mem : Mem) : UInt64 :=
  (clockGettime env mem).1 - times.middleTime

/-! ## Slices -/

/-- A slice of the coroutine `coro`, by the numbers of its first and its last reading of the clock. -/
structure Slice where
  coro : CoroPtr
  first : Nat
  last : Nat

/-- The slice that a step of the library is, if it is one. -/
def slices (s s' : State MainState Local Mem) : List Slice :=
  match s.point with
  | .user (.body c _) => [⟨c, s.mem.ticks, s'.mem.ticks - 1⟩]
  | _ => []

/-- The slice that a step of the scheduler is. -/
def schedSlices (a a' : Sched MainState Local Mem) : List Slice :=
  match a.control with
  | .body c _ => [⟨c, a.mem.ticks, a'.mem.ticks - 1⟩]
  | _ => []

/-- The nanoseconds between the two readings of a slice. -/
def Slice.duration (env : Env) (x : Slice) : Nat := (env.clock x.last).toNat - (env.clock x.first).toNat

/-- The time of all slices of `c`. -/
def workTime (env : Env) (c : CoroPtr) (log : List Slice) : Nat :=
  ((log.filter fun x => x.coro = c).map (Slice.duration env)).sum

theorem workTime_append (env : Env) (c : CoroPtr) (log : List Slice) (x : Slice) :
    workTime env c (log ++ [x]) = workTime env c log + if x.coro = c then x.duration env else 0 := by
  by_cases hx : x.coro = c
  · simp [workTime, List.filter_append, hx]
  · simp [workTime, List.filter_append, hx]

theorem workTime_eq_zero {env : Env} {c : CoroPtr} {log : List Slice} (h : ∀ x ∈ log, x.coro ≠ c) :
    workTime env c log = 0 := by
  rw [workTime, List.filter_eq_nil_iff.2 fun x hx => by simpa using h x hx]
  rfl

/-! ## The books of the clock -/

/-- What the coroutines have added up after the slices `log`. -/
structure Timed (env : Env) (log : List Slice) (a : Sched MainState Local Mem) : Prop where
  ordered : ∀ x ∈ log, x.first < x.last
  coro : ∀ x ∈ log, ∃ j < a.brk, x.coro = .node j
  each : ∀ (j : Nat) q, a.mem.args[j]? = some q → q.tSummary.toNat = workTime env (.node j) log
  total : (a.mem.args.map fun q => q.tSummary.toNat).sum = (log.map (Slice.duration env)).sum
  ticks : 2 ≤ a.mem.ticks
  /-- The slices fit between the second reading of the clock and the last one so far. -/
  bound : (log.map (Slice.duration env)).sum + (env.clock 1).toNat
    ≤ (env.clock (a.mem.ticks - 1)).toNat

section Steps

variable {env : Env} {names : List (List CChar)} {m : Nat} {log : List Slice}
  {a a' : Sched MainState Local Mem}

/-- A turn adds the time of its slice. -/
theorem Timed.turn (hclock : ∀ i j, i ≤ j → env.clock i ≤ env.clock j) (h : Timed env log a)
    {view : View} {l : Local} {q : CoroArgs} {place : Place} {count : Int} {call : BodyCall Local}
    (hturn : Turn env view l a.mem a'.mem q place count call) (hlt : l.args < a.brk)
    (hbrk : a'.brk = a.brk) :
    Timed env (log ++ [⟨.node l.args, a.mem.ticks, a'.mem.ticks - 1⟩]) a' := by
  obtain ⟨t, ht⟩ : ∃ t, t = a.mem.ticks := ⟨_, rfl⟩
  have hticks : a'.mem.ticks - 1 = t + 1 := by rw [hturn.ticks, ht]; rfl
  have hbefore : (env.clock (a.mem.ticks - 1)).toNat ≤ (env.clock t).toNat :=
    UInt64.le_iff_toNat_le.1 (hclock _ _ (by omega))
  have hslice : env.clock t ≤ env.clock (t + 1) := hclock _ _ (Nat.le_succ t)
  have hle := UInt64.le_iff_toNat_le.1 hslice
  have hmax := (env.clock (t + 1)).toNat_lt
  have hbound := h.bound
  have htotal := h.total
  obtain ⟨d, hd⟩ : ∃ d, d = Slice.duration env ⟨.node l.args, t, t + 1⟩ := ⟨_, rfl⟩
  have hdur : d = (env.clock (t + 1)).toNat - (env.clock t).toNat := hd
  have hget : (a.mem.args.map fun q => q.tSummary.toNat)[l.args]? = some q.tSummary.toNat := by
    rw [List.getElem?_map, hturn.get]
    rfl
  have hsum := sum_set hget (q.tSummary.toNat + d)
  -- the new summary does not wrap around
  have hsummary : (q.turn env a.mem.ticks count).tSummary.toNat = q.tSummary.toNat + d := by
    have hsmall := sum_set hget 0
    rw [← ht, CoroArgs.turn, UInt64.toNat_add, UInt64.toNat_sub_of_le _ _ hslice, ← hdur,
      Nat.mod_eq_of_lt (by omega)]
  rw [hticks, ← ht]
  refine ⟨?ordered, ?coro, ?each, ?total, ?ticks, ?bound⟩
  case ordered =>
    intro x hx
    rcases List.mem_append.1 hx with hx | hx
    · exact h.ordered x hx
    · rw [List.mem_singleton.1 hx]
      exact Nat.lt_succ_self t
  case coro =>
    intro x hx
    rw [hbrk]
    rcases List.mem_append.1 hx with hx | hx
    · exact h.coro x hx
    · rw [List.mem_singleton.1 hx]
      exact ⟨l.args, hlt, rfl⟩
  case each =>
    intro j q' hq'
    rw [hturn.args] at hq'
    rw [workTime_append]
    rcases PoolInv.get_set hq' with ⟨rfl, rfl⟩ | ⟨hj, hq'⟩
    · rw [hsummary, h.each l.args q hturn.get, if_pos rfl, ← hd]
    · rw [if_neg (fun heq => hj (CoroPtr.node.inj heq)), Nat.add_zero]
      exact h.each j q' hq'
  case total =>
    rw [hturn.args, List.map_set, hsummary, List.map_append, List.sum_append, List.map_singleton,
      List.sum_singleton, ← hd]
    omega
  case ticks =>
    rw [hturn.ticks]
    omega
  case bound =>
    rw [hticks, List.map_append, List.sum_append, List.map_singleton, List.sum_singleton, ← hd]
    omega

/-- **Every step keeps the books of the clock.** -/
theorem Timed.step (hclock : ∀ i j, i ≤ j → env.clock i ≤ env.clock j) (h : Timed env log a)
    (hledger : Ledger env names m a) (hgoes : Run.Goes (Sched.step (program env m)) a a') :
    Timed env (log ++ schedSlices a a') a' := by
  obtain ⟨-, hstep⟩ := programStep_of_goes hledger.started hgoes
  have hnode : ∀ {c l n q} {view : View} {place : Place} {count : Int} {call : BodyCall Local},
      a.threads c = some ⟨.ready l, n⟩ → Turn env view l a.mem a'.mem q place count call →
      a'.brk = a.brk → Timed env (log ++ [⟨c, a.mem.ticks, a'.mem.ticks - 1⟩]) a' := by
    intro c l n q view place count call ht hturn hbrk
    rw [(hledger.ready c l n ht).1]
    refine h.turn hclock hturn ?_ hbrk
    rw [← hledger.args_length]
    exact PoolInv.lt_of_get hturn.get
  cases hstep with
  | spawn hctl _ hmem _ _ hbrk _ =>
      rw [schedSlices, hctl, List.append_nil]
      refine ⟨h.ordered, ?coro, ?each, ?total, ?ticks, ?bound⟩
      case coro =>
        intro x hx
        obtain ⟨j, hj, hcoro⟩ := h.coro x hx
        exact ⟨j, by omega, hcoro⟩
      case each =>
        intro j q hq
        rw [hmem] at hq
        rcases Nat.lt_or_ge j a.mem.args.length with hlt | hge
        · rw [List.getElem?_append_left hlt] at hq
          exact h.each j q hq
        · rw [List.getElem?_append_right hge, List.getElem?_singleton] at hq
          split at hq
          · obtain rfl := Option.some.inj hq
            refine (workTime_eq_zero fun x hx hcoro => ?_).symm
            obtain ⟨i, hi, hnode⟩ := h.coro x hx
            rw [hnode] at hcoro
            have hij := CoroPtr.node.inj hcoro
            have hlen := hledger.args_length
            omega
          · cases hq
      case total =>
        rw [hmem, List.map_append, List.sum_append, h.total]
        rfl
      case ticks => rw [hmem]; exact h.ticks
      case bound => rw [hmem]; exact h.bound
  | quiet hctl hmem hbrk _ _ _ =>
      obtain ⟨out, hmem⟩ := hmem
      have hnil : schedSlices a a' = [] := by
        unfold schedSlices
        split
        · next c k hbody => exact absurd hbody (hctl c k)
        · rfl
      rw [hnil, List.append_nil]
      refine ⟨h.ordered, hbrk ▸ h.coro, ?_, ?_, ?_, ?_⟩ <;> rw [hmem]
      · exact h.each
      · exact h.total
      · exact h.ticks
      · exact h.bound
  | yields hctl ht hturn _ _ hbrk _ =>
      rw [schedSlices, hctl]
      exact hnode ht hturn hbrk
  | finishes hctl ht hturn _ _ hbrk _ =>
      rw [schedSlices, hctl]
      exact hnode ht hturn hbrk

end Steps

/-! ## Runs of the program -/

section Runs

variable {env : Env} {names : List (List CChar)} {m : Nat} {log : List Slice}

theorem init_timed (env : Env) (names : List (List CChar)) :
    Timed env [] (Sched.init (.start 0) (mainStart env names).2) := by
  refine ⟨by simp, by simp, fun j q hq => (by cases hq), rfl, Nat.le_refl 2, ?_⟩
  exact Nat.le_of_eq (Nat.zero_add _)

theorem logged_timed (hclock : ∀ i j, i ≤ j → env.clock i ≤ env.clock j)
    {a : Sched MainState Local Mem}
    (h : Run.Logged (Sched.step (program env m)) schedSlices
      (Sched.init (.start 0) (mainStart env names).2) log a) :
    Ledger env names m a ∧ Timed env log a := by
  induction h with
  | refl => exact ⟨init_ledger env names m 2, init_timed env names⟩
  | tail _ hgoes ih => exact ⟨ih.1.step hgoes, ih.2.step hclock ih.1 hgoes⟩

/-- The slices of the library are those of the scheduler. -/
theorem slices_eq {s s' : State MainState Local Mem} {a a' : Sched MainState Local Mem}
    (h : Rep s a) (h' : Rep s' a') : slices s s' = schedSlices a a' := by
  have hpoint := h.point
  rw [PointRep] at hpoint
  rw [slices, schedSlices, h.mem, h'.mem]
  cases hctl : a.control with
  | main k =>
      rw [hctl] at hpoint
      rw [hpoint]
  | wait k =>
      rw [hctl] at hpoint
      rw [hpoint]
  | halted =>
      rw [hctl] at hpoint
      rw [hpoint]
  | body c k =>
      rw [hctl] at hpoint
      obtain ⟨-, ⟨l, n, -, hbody⟩, -⟩ := hpoint
      rw [hbody]

/-- A run of the library is one of the scheduler, with the same slices. -/
theorem logged_sched {s : State MainState Local Mem} {mem : Mem}
    (h : Run.Logged (step (program env m)) slices (init (.start 0) mem) log s) :
    ∃ a, Run.Logged (Sched.step (program env m)) schedSlices (Sched.init (.start 0) mem) log a ∧
      Rep s a ∧ a.Inv := by
  refine (library_simulates (program env m)).logged ?_ ⟨rep_init _ _, Sched.inv_init _ _⟩ h
  exact fun s s' a a' hR hR' => slices_eq hR.1 hR'.1

end Runs

/-- **Work times leave out waiting**: after all coroutines have been waited for, `t_summary` of each is
    the time of its slices, the times from the first to the last reading of the clock in each of them;
    and the sum over all coroutines is at most `middle_time`. -/
theorem work_time_exact (env : Env) (names : List (List CChar)) (m : Nat)
    (hclock : ∀ i j, i ≤ j → env.clock i ≤ env.clock j) (log : List Slice)
    (s : State MainState Local Mem)
    (h : Run.Logged (step (program env m)) slices (init (.start 0) (mainStart env names).2) log s)
    (hpoint : s.point = .user (.main (.waited none))) :
    s.mem.args.length = m ∧ (∀ x ∈ log, x.first < x.last) ∧
    (∀ (j : Nat) q, s.mem.args[j]? = some q →
      q.tSummary.toNat = workTime env (.node j) log) ∧
    (s.mem.args.map fun q => q.tSummary.toNat).sum
      ≤ (middleTime env (mainStart env names).1 s.mem).toNat := by
  obtain ⟨a, hlog, hrep, -⟩ := logged_sched h
  obtain ⟨hledger, htimed⟩ := logged_timed hclock hlog
  have hctl := hrep.control_main hpoint
  rw [hrep.mem]
  refine ⟨hledger.args_length.trans (hledger.at_end hctl).1, htimed.ordered, htimed.each, ?_⟩
  -- the last reading is after the second one
  have hbound := htimed.bound
  have hticks := htimed.ticks
  have hlast := UInt64.le_iff_toNat_le.1 (hclock (a.mem.ticks - 1) a.mem.ticks (Nat.sub_le _ 1))
  have hmiddle : (middleTime env (mainStart env names).1 a.mem).toNat
      = (env.clock a.mem.ticks).toNat - (env.clock 1).toNat :=
    UInt64.toNat_sub_of_le _ _ (hclock 1 _ (by omega))
  rw [htimed.total, hmiddle]
  omega

/-- The file `f` with the text `2 1`, and a clock whose readings are further and further apart. -/
def slowingClock : Env := { oneFile with clock := fun i => UInt64.ofNat (min i 100 ^ 2) }

theorem slowingClock_mono (i j : Nat) (hij : i ≤ j) :
    slowingClock.clock i ≤ slowingClock.clock j := by
  have hsquare : ∀ n : Nat, min n 100 ^ 2 ≤ 100 ^ 2 := fun n =>
    Nat.pow_le_pow_left (Nat.min_le_right n 100) 2
  have hi := hsquare i
  have hj := hsquare j
  rw [UInt64.le_iff_toNat_le]
  simp only [slowingClock, UInt64.toNat_ofNat']
  rw [Nat.mod_eq_of_lt (by omega), Nat.mod_eq_of_lt (by omega)]
  exact Nat.pow_le_pow_left (by omega) 2

/-- `main` has waited for all coroutines. -/
def waitedAll (s : State MainState Local Mem) : Bool :=
  match s.point with
  | .user (.main (.waited none)) => true
  | _ => false

theorem waitedAll_point {s : State MainState Local Mem} (h : waitedAll s = true) :
    s.point = .user (.main (.waited none)) := by
  unfold waitedAll at h
  split at h
  · assumption
  · cases h

/-- The second coroutine sorts the file, and waits between its first two slices while the first one
    runs and finds no file. -/
theorem work_time_exact_slowingClock :
    ∃ log s, Run.Logged (step (program slowingClock 2)) slices
        (init (.start 0) (mainStart slowingClock [ascii ['f']]).2) log s ∧
      log.map (fun x => (x.coro, x.first, x.last)) = [(.node 1, 2, 3), (.node 0, 4, 5),
        (.node 1, 6, 7), (.node 1, 8, 9), (.node 1, 10, 11), (.node 1, 12, 13),
        (.node 1, 14, 15)] ∧
      s.mem.args.map (fun q => q.tSummary.toNat) = [9, 110] ∧
      s.mem.args.length = 2 ∧ (∀ x ∈ log, x.first < x.last) ∧
      (∀ (j : Nat) q, s.mem.args[j]? = some q →
        q.tSummary.toNat = workTime slowingClock (.node j) log) ∧
      (s.mem.args.map fun q => q.tSummary.toNat).sum
        ≤ (middleTime slowingClock (mainStart slowingClock [ascii ['f']]).1 s.mem).toNat := by
  obtain ⟨log, s, hlog, hend⟩ : ∃ log s,
      Run.loggedAfter (step (program slowingClock 2)) slices 23
        (init (.start 0) (mainStart slowingClock [ascii ['f']]).2) = (log, s) ∧
      (decide (log.map (fun x => (x.coro, x.first, x.last)) = [(.node 1, 2, 3), (.node 0, 4, 5),
        (.node 1, 6, 7), (.node 1, 8, 9), (.node 1, 10, 11), (.node 1, 12, 13),
        (.node 1, 14, 15)] ∧ s.mem.args.map (fun q => q.tSummary.toNat) = [9, 110]) &&
      waitedAll s) = true :=
    ⟨_, _, rfl, by decide +kernel⟩
  have hrun := Run.logged_after (step (program slowingClock 2)) slices 23
    (init (.start 0) (mainStart slowingClock [ascii ['f']]).2)
  rw [hlog] at hrun
  rw [Bool.and_eq_true, decide_eq_true_eq] at hend
  obtain ⟨⟨hslices, htimes⟩, hpoint⟩ := hend
  refine ⟨log, s, hrun, hslices, htimes, work_time_exact slowingClock [ascii ['f']] 2
    slowingClock_mono log s hrun (waitedAll_point hpoint)⟩

end SysProg.MergeSort
