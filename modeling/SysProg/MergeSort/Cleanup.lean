import SysProg.MergeSort.OutputText

set_option autoImplicit false

/-! # What `main` frees (`1/solution/solution.c`)

`main` deletes each coroutine right after `coro_sched_wait` has returned it. Whatever the files hold,
a run that comes to the end of `main` has deleted every coroutine once, in the order they finished,
and leaves none of their blocks. Its last loop frees the arrays of the files through `numbers`: each
array that `read_file` has allocated is in one row, so it is freed, and once. -/

namespace SysProg.MergeSort

open Libcoro

/-- Everything that was waited for is deleted, but for the coroutine `main` has in hand. -/
def Tidy (a : Sched MainState Local Mem) : Prop :=
  match a.control with
  | .main (.waited (some c)) => waited a.trace = deleted a.trace ++ [c]
  | .main (.waited none) => waited a.trace = deleted a.trace ∧ a.members = []
  | .halted => waited a.trace = deleted a.trace ∧ a.members = []
  | _ => waited a.trace = deleted a.trace

section Steps

variable {env : Env} {m : Nat} {a a' : Sched MainState Local Mem}

/-- Events that hand back and delete nothing. -/
theorem tidy_append {tr e : List Event} (h : waited tr = deleted tr) (hw : waited e = [])
    (hd : deleted e = []) : waited (tr ++ e) = deleted (tr ++ e) := by
  rw [waited_append, deleted_append, hw, hd, List.append_nil, List.append_nil, h]

theorem tidy_switchTo {k : Option CoroPtr → MainState} (h : waited a.trace = deleted a.trace)
    (d : Option CoroPtr) : Tidy (a.switchTo k d) := by
  cases d with
  | none => exact tidy_append h rfl rfl
  | some d => exact tidy_append h rfl rfl

theorem wait_tidy (h : waited a.trace = deleted a.trace) : Tidy (a.wait .waited) := by
  unfold Sched.wait
  split
  · next c hfind =>
      show waited (a.trace ++ [.wait (some (c, true, a.retOf c))])
        = deleted (a.trace ++ [.wait (some (c, true, a.retOf c))]) ++ [c]
      rw [waited_append, deleted_append, h]
      simp [waited, deleted]
  · split
    · next hnil => exact ⟨tidy_append h rfl rfl, hnil⟩
    · exact tidy_append h rfl rfl

theorem main_tidy {k : MainState} {call : MainCall MainState Local} {mem : Mem} (h : Tidy a)
    (hctl : a.control = .main k) (hmain : main m k a.mem = pure (call, mem))
    (hcall : Sched.mainCall { a with mem := mem } call = pure a') : Tidy a' := by
  rw [Tidy, hctl] at h
  rcases k with i | _ | _ | c
  case start =>
    rw [main] at hmain
    split at hmain
    · obtain ⟨rfl, rfl⟩ := Prod.mk.inj ((pure_inj _ _).1 hmain)
      obtain rfl := (lib_pure_inj _ _).1 hcall
      exact tidy_append h rfl rfl
    · obtain ⟨rfl, rfl⟩ := Prod.mk.inj ((pure_inj _ _).1 hmain)
      obtain rfl := (lib_pure_inj _ _).1 hcall
      exact h
  case wait =>
    obtain ⟨rfl, rfl⟩ := Prod.mk.inj ((pure_inj _ _).1 hmain)
    obtain rfl := (lib_pure_inj _ _).1 hcall
    exact h
  case waited.none =>
    obtain ⟨out, -, hpure⟩ := bind_eq_pure.1 hmain
    obtain ⟨rfl, rfl⟩ := Prod.mk.inj ((pure_inj _ _).1 hpure)
    obtain rfl := (lib_pure_inj _ _).1 hcall
    exact h
  case waited.some =>
    obtain ⟨rfl, rfl⟩ := Prod.mk.inj ((pure_inj _ _).1 hmain)
    obtain ⟨b, hdel, hb⟩ := lib_bind hcall
    obtain rfl := (lib_pure_inj _ _).1 hb
    show waited b.trace = deleted b.trace
    rw [Sched.delete_trace hdel, waited_append, deleted_append, h]
    simp [waited, deleted]

theorem body_tidy {c : CoroPtr} {n : Int} {l : Local} {call : BodyCall Local} {mem : Mem}
    (h : waited a.trace = deleted a.trace)
    (hrun : intermediate env a.view l a.mem = pure (call, mem))
    (hcall : Sched.bodyCall { a with mem := mem } c n .waited call = pure a') : Tidy a' := by
  obtain ⟨q, place, count, hturn⟩ := intermediate_turn hrun
  -- a turn ends in a `coro_yield` or in a return
  have hyields : ∀ l', Sched.bodyCall { a with mem := mem } c n .waited (.call (.yield l')) = pure a' →
      Tidy a' := by
    intro l' hcall
    obtain rfl := (lib_pure_inj _ _).1 hcall
    exact tidy_switchTo (tidy_append (e := [.yield c]) h rfl rfl) _
  cases hturn.ends with
  | merge => exact hyields _ hcall
  | pass => exact hyields _ hcall
  | read => exact hyields _ hcall
  | ret =>
      obtain rfl := (lib_pure_inj _ _).1 hcall
      exact tidy_switchTo (tidy_append (e := [.ret c 0]) h rfl rfl) none

/-- A step of the program stays tidy. -/
theorem Tidy.step (h : Tidy a) (hstarted : Started m a)
    (hgoes : Run.Goes (Sched.step (program env m)) a a') : Tidy a' := by
  rcases Sched.step_cases hgoes with ⟨k, hctl, rfl⟩ | ⟨k, call, mem, hctl, hmain, hcall⟩ |
    ⟨c, k, l, n, call, mem, hctl, -, hrun, hcall⟩
  · rw [Tidy, hctl] at h
    rw [Started, hctl] at hstarted
    rw [hstarted.2]
    exact wait_tidy h
  · exact main_tidy h hctl hmain hcall
  · rw [Tidy, hctl] at h
    rw [Started, hctl] at hstarted
    obtain ⟨-, rfl⟩ := hstarted
    exact body_tidy h hrun hcall

theorem reaches_tidy {names : List (List CChar)} (ticks : Nat)
    (h : Run.Reaches (Sched.step (program env m))
      (Sched.init (.start 0) { tables names with ticks := ticks }) a) : Tidy a := by
  induction h with
  | refl => exact rfl
  | tail hreach hgoes ih => exact ih.step (reaches_ledger ticks hreach).started hgoes

end Steps

/-- **The coroutines are freed**: in every run that comes to the end of `main`, whatever the files
    hold, the coroutines were deleted in the order `coro_sched_wait` returned them, each of the `m`
    started once, and no block of a coroutine is left. -/
theorem coroutines_freed (env : Env) (names : List (List CChar)) (m : Nat)
    (s : State MainState Local Mem)
    (h : Libcoro.Reaches (program env m) (init (.start 0) (tables names)) s)
    (hend : s.point = .halted) :
    deleted s.trace = waited s.trace ∧
      (deleted s.trace).Perm ((List.range m).map .node) ∧ ∀ n, s.heap (.node n) = none := by
  obtain ⟨a, hreach, hrep, ha⟩ := h.sched
  have hledger : Ledger env names m a := reaches_ledger 0 hreach
  have hctl : a.control = .halted := by
    have hpoint := hrep.point
    rw [PointRep] at hpoint
    cases hctl : a.control with
    | halted => rfl
    | main k => rw [hctl, hend] at hpoint; cases hpoint
    | wait k => rw [hctl, hend] at hpoint; cases hpoint
    | body c k =>
        rw [hctl, hend] at hpoint
        obtain ⟨-, ⟨l, n, -, hp⟩, -⟩ := hpoint
        cases hp
  have htidy : Tidy a := reaches_tidy 0 hreach
  rw [Tidy, hctl] at htidy
  obtain ⟨hdeleted, hmembers⟩ := htidy
  have hbrk : a.brk = m := by
    have hstarted := hledger.started
    rwa [Started, hctl] at hstarted
  have hperm := ha.book.perm
  rw [hmembers, List.append_nil, hdeleted] at hperm
  rw [hrep.trace]
  refine ⟨hdeleted.symm, ?_, fun n => ?_⟩
  · rw [← hbrk, ← ha.book.created_eq]
    exact hperm
  · have hnone : a.threads (.node n) = none := by
      refine ha.book.thread_none _ ?_
      by_cases hc : CoroPtr.node n ∈ created a.trace
      · exact Or.inr (hperm.mem_iff.2 hc)
      · exact Or.inl hc
    have hnode := hrep.heap.node n
    rw [hnone] at hnode
    exact Option.map_eq_none_iff.1 hnode

/-- Three coroutines for one file. -/
theorem coroutines_freed_oneFile :
    ∃ s : State MainState Local Mem, s.point = .halted ∧ deleted s.trace = waited s.trace ∧
      (deleted s.trace).Perm ((List.range 3).map .node) ∧ ∀ n, s.heap (.node n) = none := by
  obtain ⟨⟨s, hs, hend⟩, -⟩ :=
    program_output (m := 3) (by decide) oneFile_contents (Nat.succ_pos 2)
  exact ⟨s, hend, coroutines_freed oneFile [ascii ['f']] 3 s hs hend⟩

/-! ## The arrays -/

/-- The loop of `main` that frees the rows of `numbers` that are not NULL, where the arrays `live` are
    allocated. To free an array that is not is undefined. -/
def freeRows : List (Option Nat) → List Nat → C (List Nat)
  | [], live => pure live
  | none :: rows, live => freeRows rows live
  | some b :: rows, live => if b ∈ live then freeRows rows (live.erase b) else throw .undefined

/-- Rows that hold the allocated arrays, each once, free all of them. -/
theorem freeRows_perm {rows : List (Option Nat)} {live : List Nat}
    (h : (rows.filterMap id).Perm live) : freeRows rows live = pure [] := by
  induction rows generalizing live with
  | nil =>
      obtain rfl := h.nil_eq
      rfl
  | cons row rows ih =>
      cases row with
      | none => exact ih h
      | some b =>
          obtain ⟨hmem, hrest⟩ := List.cons_perm_iff_perm_erase.1 h
          rw [freeRows, if_pos hmem]
          exact ih hrest

/-- An array that is put into an empty row. -/
theorem filterMap_set {rows : List (Option Nat)} {i b : Nat} (h : rows[i]? = some none) :
    ((rows.set i (some b)).filterMap id).Perm (b :: rows.filterMap id) := by
  induction rows generalizing i with
  | nil => cases h
  | cons row rows ih =>
      cases i with
      | zero =>
          obtain rfl : row = none := by simpa using h
          exact .refl _
      | succ i =>
          have hrest := ih (i := i) (by simpa using h)
          cases row with
          | none => exact hrest
          | some a => exact (hrest.cons a).trans (.swap b a _)

/-- The rows of `numbers` are those of the files, empty where the file is not claimed, and hold each
    array once. -/
structure Rows (mem : Mem) : Prop where
  index : ∀ (i : Nat) f, mem.files[i]? = some f → f.index = i
  empty : ∀ (i : Nat) f, mem.files[i]? = some f → f.processed = false → mem.numbers[i]? = some none
  perm : (mem.numbers.filterMap id).Perm (List.range mem.blocks.length)

section Rows

variable {env : Env} {view : View} {me : Nat} {mem mem' : Mem} {call : BodyCall Local}

/-- Nothing but the arguments, the integers of the arrays or the output changes. -/
theorem Rows.congr (h : Rows mem) (hfiles : mem'.files = mem.files) (hnumbers : mem'.numbers = mem.numbers)
    (hblocks : mem'.blocks.length = mem.blocks.length) : Rows mem' :=
  ⟨hfiles ▸ h.index, by rw [hfiles, hnumbers]; exact h.empty, by rw [hnumbers, hblocks]; exact h.perm⟩

theorem tables_rows (names : List (List CChar)) (ticks : Nat) :
    Rows { tables names with ticks := ticks } := by
  have hfile : ∀ (i : Nat) f, (tables names).files[i]? = some f → f.index = i ∧ i < names.length := by
    intro i f hf
    simp only [tables, List.getElem?_mapIdx, Option.map_eq_some_iff] at hf
    obtain ⟨name, hname, rfl⟩ := hf
    exact ⟨rfl, PoolInv.lt_of_get hname⟩
  refine ⟨fun i f hf => (hfile i f hf).1, fun i f hf _ => ?_, ?_⟩
  · show (List.replicate names.length none)[i]? = some none
    rw [List.getElem?_replicate, if_pos (hfile i f hf).2]
  · show ((List.replicate names.length none).filterMap id).Perm []
    rw [List.filterMap_replicate_of_none rfl]

theorem stopClock_rows (h : Rows mem) (hstop : stopClock env me mem = pure mem') : Rows mem' := by
  obtain ⟨q, -, rfl⟩ := stopClock_cases hstop
  exact h.congr rfl rfl rfl

/-- The inner loop of `me_mergesort` changes the integers of an array. -/
theorem innerLoop_rows {f : SortFrame} {leftStart : Int} (h : Rows mem)
    (hrun : innerLoop env me f leftStart mem = pure (call, mem')) : Rows mem' := by
  obtain ⟨last, -, hrun⟩ := bind_eq_pure.1 hrun
  split at hrun
  · obtain ⟨leftEnd, -, hrun⟩ := bind_eq_pure.1 hrun
    obtain ⟨width, -, hrun⟩ := bind_eq_pure.1 hrun
    obtain ⟨rightEnd, -, hrun⟩ := bind_eq_pure.1 hrun
    obtain ⟨mem1, hmerge, hrun⟩ := bind_eq_pure.1 hrun
    obtain ⟨mem2, hstop, hrun⟩ := bind_eq_pure.1 hrun
    obtain ⟨-, rfl⟩ := Prod.mk.inj ((pure_inj _ _).1 hrun)
    refine stopClock_rows ?_ hstop
    unfold mergeAt at hmerge
    split at hmerge
    · cases hmerge
    · obtain ⟨array, -, hmerge⟩ := bind_eq_pure.1 hmerge
      obtain ⟨array', -, hmerge⟩ := bind_eq_pure.1 hmerge
      obtain ⟨blocks, hstore, hmerge⟩ := bind_eq_pure.1 hmerge
      obtain ⟨rfl, -⟩ := store_eq_pure hstore
      rw [← (pure_inj _ _).1 hmerge]
      exact h.congr rfl rfl (List.length_set ..)
  · obtain ⟨mem2, hstop, hrun⟩ := bind_eq_pure.1 hrun
    obtain ⟨-, rfl⟩ := Prod.mk.inj ((pure_inj _ _).1 hrun)
    exact stopClock_rows h hstop

/-- A file is claimed, and its array put into its row. -/
theorem readInto_rows {file : Nat} {f : CoroFile} {n : Int} (h : Rows mem)
    (hf : mem.files[file]? = some f) (hfree : f.processed = false)
    (hread : readInto env me f (claim me file f mem) = pure (n, mem')) : Rows mem' := by
  obtain ⟨⟨vs, len⟩, -, hread⟩ := bind_eq_pure.1 hread
  obtain ⟨numbers, hnumbers, hread⟩ := bind_eq_pure.1 hread
  obtain ⟨lengths, -, hread⟩ := bind_eq_pure.1 hread
  obtain ⟨-, rfl⟩ := Prod.mk.inj ((pure_inj _ _).1 hread)
  obtain ⟨rfl, -⟩ := store_eq_pure hnumbers
  have hclaimed : ∀ (i : Nat) g, (mem.files.set file { f with processed := true })[i]? = some g →
      i = file ∧ g = { f with processed := true } ∨ i ≠ file ∧ mem.files[i]? = some g := by
    intro i g hg
    by_cases hi : i = file
    · subst hi
      rw [List.getElem?_set_self (PoolInv.lt_of_get hf)] at hg
      exact Or.inl ⟨rfl, (Option.some.inj hg).symm⟩
    · rw [List.getElem?_set_ne (Ne.symm hi)] at hg
      exact Or.inr ⟨hi, hg⟩
  refine ⟨fun i g hg => ?_, fun i g hg hproc => ?_, ?_⟩
  · rcases hclaimed i g hg with ⟨rfl, rfl⟩ | ⟨-, hold⟩
    · exact h.index i f hf
    · exact h.index i g hold
  · rcases hclaimed i g hg with ⟨-, rfl⟩ | ⟨hne, hold⟩
    · cases hproc
    · show (mem.numbers.set f.index (some mem.blocks.length))[i]? = some none
      rw [h.index file f hf, List.getElem?_set_ne (Ne.symm hne)]
      exact h.empty i g hold hproc
  · show ((mem.numbers.set f.index (some mem.blocks.length)).filterMap id).Perm
      (List.range (mem.blocks ++ [vs]).length)
    rw [h.index file f hf, List.length_append, List.length_singleton, List.range_succ]
    exact (filterMap_set (h.empty file f hf hfree)).trans
      ((h.perm.cons _).trans (List.perm_append_singleton _ _).symm)

theorem nextFile_rows (h : Rows mem) (hrun : nextFile env me mem = pure (call, mem')) : Rows mem' := by
  obtain ⟨q, hq, hrun⟩ := bind_eq_pure.1 hrun
  obtain ⟨r, hget, hrun⟩ := bind_eq_pure.1 hrun
  rcases getFileLoop_cases _ hget with ⟨file, f, rfl, hf, hfree⟩ | ⟨rfl, -⟩
  · obtain ⟨f', hf', hrun⟩ := bind_eq_pure.1 hrun
    obtain rfl : f = f' := Option.some.inj (hf.symm.trans (load_eq_pure hf'))
    obtain ⟨⟨n, mem1⟩, hread, hrun⟩ := bind_eq_pure.1 hrun
    obtain ⟨mem2, hstop, hrun⟩ := bind_eq_pure.1 hrun
    obtain ⟨-, rfl⟩ := Prod.mk.inj ((pure_inj _ _).1 hrun)
    exact stopClock_rows (readInto_rows h hf hfree hread) hstop
  · obtain ⟨mem2, hstop, hrun⟩ := bind_eq_pure.1 hrun
    obtain ⟨-, rfl⟩ := Prod.mk.inj ((pure_inj _ _).1 hrun)
    exact stopClock_rows h hstop

theorem outerLoop_rows {f : SortFrame} (h : Rows mem)
    (hrun : outerLoop env view me f mem = pure (call, mem')) : Rows mem' := by
  unfold outerLoop at hrun
  split at hrun
  · exact innerLoop_rows h hrun
  · obtain ⟨mem1, hset, hrun⟩ := bind_eq_pure.1 hrun
    obtain ⟨c, n, q, -, -, -, rfl⟩ := setSwitchCount_cases hset
    refine nextFile_rows ?_ hrun
    exact h.congr rfl rfl rfl

/-- **Every turn of a coroutine keeps the rows.** -/
theorem intermediate_rows {l : Local} (h : Rows mem)
    (hrun : intermediate env view l mem = pure (call, mem')) : Rows mem' := by
  obtain ⟨mem1, hstart, hrun⟩ := bind_eq_pure.1 hrun
  obtain ⟨q, -, rfl⟩ := startClock_cases hstart
  have hstarted : Rows { mem with
      args := mem.args.set l.args { q with tInvoked := env.clock mem.ticks }
      ticks := mem.ticks + 1 } := h.congr rfl rfl rfl
  cases hresume : l.resume with
  | start =>
      simp only [hresume] at hrun
      exact nextFile_rows hstarted hrun
  | afterRead file n =>
      simp only [hresume] at hrun
      obtain ⟨f, -, hrun⟩ := bind_eq_pure.1 hrun
      obtain ⟨array, -, hrun⟩ := bind_eq_pure.1 hrun
      exact outerLoop_rows hstarted hrun
  | afterMerge f leftStart =>
      simp only [hresume] at hrun
      obtain ⟨width, -, hrun⟩ := bind_eq_pure.1 hrun
      obtain ⟨next, -, hrun⟩ := bind_eq_pure.1 hrun
      exact innerLoop_rows hstarted hrun
  | afterPass f =>
      simp only [hresume] at hrun
      obtain ⟨width, -, hrun⟩ := bind_eq_pure.1 hrun
      exact outerLoop_rows hstarted hrun

end Rows

/-- `main` leaves the rows alone. -/
theorem main_rows {m : Nat} {k : MainState} {mem mem' : Mem} {call : MainCall MainState Local}
    (h : Rows mem) (hmain : main m k mem = pure (call, mem')) : Rows mem' := by
  have hsame : ∀ {call' : MainCall MainState Local},
      (pure (call', mem) : C (MainCall MainState Local × Mem)) = pure (call, mem') → Rows mem' := by
    intro call' hpure
    obtain ⟨-, rfl⟩ := Prod.mk.inj ((pure_inj _ _).1 hpure)
    exact h
  rcases k with i | _ | _ | c
  case start =>
    rw [main] at hmain
    split at hmain
    · obtain ⟨-, rfl⟩ := Prod.mk.inj ((pure_inj _ _).1 hmain)
      exact h.congr rfl rfl rfl
    · exact hsame hmain
  case wait => exact hsame hmain
  case waited.none =>
    obtain ⟨out, -, hpure⟩ := bind_eq_pure.1 hmain
    obtain ⟨-, rfl⟩ := Prod.mk.inj ((pure_inj _ _).1 hpure)
    exact h.congr rfl rfl rfl
  case waited.some => exact hsame hmain

/-- **The arrays are freed**: in every run of the program, whatever the files hold, the last loop of
    `main` frees each array that `read_file` has allocated so far once, and nothing else. -/
theorem arrays_freed (env : Env) (names : List (List CChar)) (m : Nat)
    (s : State MainState Local Mem)
    (h : Libcoro.Reaches (program env m) (init (.start 0) (tables names)) s) :
    freeRows s.mem.numbers (List.range s.mem.blocks.length) = pure [] := by
  obtain ⟨a, hreach, hrep, -⟩ := h.sched
  rw [hrep.mem]
  have hrows : Rows a.mem :=
    Sched.mem_invariant Rows main_rows intermediate_rows (tables_rows names 0) hreach
  exact freeRows_perm hrows.perm

/-- Three coroutines for one file. -/
theorem arrays_freed_oneFile :
    ∃ s : State MainState Local Mem, s.point = .halted ∧
      freeRows s.mem.numbers (List.range s.mem.blocks.length) = pure [] := by
  obtain ⟨⟨s, hs, hend⟩, -⟩ :=
    program_output (m := 3) (by decide) oneFile_contents (Nat.succ_pos 2)
  exact ⟨s, hend, arrays_freed oneFile [ascii ['f']] 3 s hs⟩

end SysProg.MergeSort
