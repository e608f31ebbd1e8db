import SysProg.MergeSort.Pool

set_option autoImplicit false

/-! # What a coroutine writes

The log `writes` of the memory is ghost state. Here it is tied to the memory: whatever a coroutine
changes from one `coro_yield` to the next it logs under its own name. -/

namespace SysProg.MergeSort

open Libcoro

/-- Two memories that hold the same at a location. -/
def Mem.SameAt (mem mem' : Mem) : Location → Prop
  | .processed i => mem'.files[i]? = mem.files[i]?
  | .numbers i => mem'.numbers[i]? = mem.numbers[i]?
  | .arraysLength i => mem'.arraysLength[i]? = mem.arraysLength[i]?
  | .ints b => mem'.blocks[b]? = mem.blocks[b]?

/-- The coroutine `me` has gone from `mem` to `mem'` and has logged all that it changed. -/
def Logs (me : Nat) (mem mem' : Mem) : Prop :=
  ∃ locs : List Location, mem'.writes = mem.writes ++ locs.map (fun x => (me, x)) ∧
    ∀ x, x ∉ locs → mem.SameAt mem' x

theorem Mem.SameAt.refl (mem : Mem) (x : Location) : mem.SameAt mem x := by
  cases x <;> rfl

theorem Mem.SameAt.trans {mem mem' mem'' : Mem} {x : Location} (h : mem.SameAt mem' x)
    (h' : mem'.SameAt mem'' x) : mem.SameAt mem'' x := by
  cases x with
  | processed i => exact Eq.trans h' h
  | numbers i => exact Eq.trans h' h
  | arraysLength i => exact Eq.trans h' h
  | ints b => exact Eq.trans h' h

variable {me : Nat} {mem mem' mem'' : Mem}

theorem Logs.trans (h : Logs me mem mem') (h' : Logs me mem' mem'') : Logs me mem mem'' := by
  obtain ⟨locs, hwrites, hsame⟩ := h
  obtain ⟨locs', hwrites', hsame'⟩ := h'
  refine ⟨locs ++ locs', ?_, fun x hx => ?_⟩
  · rw [hwrites', hwrites, List.append_assoc, ← List.map_append]
  · rw [List.mem_append, not_or] at hx
    exact (hsame x hx.1).trans (hsame' x hx.2)

/-- Times and counts are not in the log. -/
theorem Mem.Agree.logs (h : mem.Agree mem') : Logs me mem mem' := by
  obtain ⟨args, ticks, rfl, -, -⟩ := h
  refine ⟨[], (List.append_nil _).symm, fun x _ => ?_⟩
  cases x <;> rfl

/-! ## The parts of `intermediate` -/

theorem startClock_logs {env : Env} (h : startClock env me mem = pure mem') : Logs me mem mem' := by
  obtain ⟨r, hr, -⟩ := bind_eq_pure.1 h
  obtain ⟨mem₁, hrun, hagree⟩ := startClock_run env (load_eq_pure hr)
  obtain rfl : mem₁ = mem' := (pure_inj _ _).1 (hrun.symm.trans h)
  exact hagree.logs

theorem stopClock_logs {env : Env} (h : stopClock env me mem = pure mem') : Logs me mem mem' := by
  obtain ⟨r, hr, -⟩ := bind_eq_pure.1 h
  obtain ⟨mem₁, hrun, hagree⟩ := stopClock_run env (load_eq_pure hr)
  obtain rfl : mem₁ = mem' := (pure_inj _ _).1 (hrun.symm.trans h)
  exact hagree.logs

theorem setSwitchCount_logs {view : View} {this : Option CoroPtr}
    (h : setSwitchCount view this me mem = pure mem') : Logs me mem mem' := by
  cases this with
  | none => cases h
  | some c =>
      obtain ⟨n, hn, hset⟩ := bind_eq_pure.1 h
      obtain ⟨r, hr, -⟩ := bind_eq_pure.1 hset
      obtain ⟨mem₁, hrun, hagree⟩ := setSwitchCount_run hn (load_eq_pure hr)
      obtain rfl : mem₁ = mem' := (pure_inj _ _).1 (hrun.symm.trans h)
      exact hagree.logs

theorem claim_logs (file : Nat) (f : CoroFile) (mem : Mem) : Logs me mem (claim me file f mem) := by
  refine ⟨[.processed file], rfl, fun x hx => ?_⟩
  rw [List.mem_singleton] at hx
  cases x with
  | processed i => exact List.getElem?_set_ne fun heq => hx (congrArg Location.processed heq.symm)
  | numbers i => rfl
  | arraysLength i => rfl
  | ints b => rfl

theorem readInto_logs {env : Env} {f : CoroFile} {n : Int}
    (h : readInto env me f mem = pure (n, mem')) : Logs me mem mem' := by
  obtain ⟨⟨vs, len⟩, -, h⟩ := bind_eq_pure.1 h
  obtain ⟨numbers, hnumbers, h⟩ := bind_eq_pure.1 h
  obtain ⟨arraysLength, hlengths, h⟩ := bind_eq_pure.1 h
  obtain ⟨rfl, -⟩ := store_eq_pure hnumbers
  obtain ⟨rfl, -⟩ := store_eq_pure hlengths
  obtain ⟨-, rfl⟩ := Prod.mk.inj ((pure_inj _ _).1 h)
  refine ⟨[.ints mem.blocks.length, .numbers f.index, .arraysLength f.index], rfl, fun x hx => ?_⟩
  simp only [List.mem_cons, List.not_mem_nil, or_false, not_or] at hx
  obtain ⟨hints, hnum, hlen⟩ := hx
  cases x with
  | processed i => rfl
  | numbers i => exact List.getElem?_set_ne fun heq => hnum (congrArg Location.numbers heq.symm)
  | arraysLength i =>
      exact List.getElem?_set_ne fun heq => hlen (congrArg Location.arraysLength heq.symm)
  | ints b =>
      have hb : b ≠ mem.blocks.length := fun heq => hints (congrArg Location.ints heq)
      simp only [Mem.SameAt, List.getElem?_append, List.getElem?_singleton]
      split
      · rfl
      · next hge => rw [if_neg (by omega), List.getElem?_eq_none (by omega)]

theorem mergeAt_logs {p : Option Nat} {lhs mid rhs : Int}
    (h : mergeAt me p lhs mid rhs mem = pure mem') : Logs me mem mem' := by
  cases p with
  | none => cases h
  | some b =>
      obtain ⟨array, -, h⟩ := bind_eq_pure.1 h
      obtain ⟨array', -, h⟩ := bind_eq_pure.1 h
      obtain ⟨blocks, hblocks, h⟩ := bind_eq_pure.1 h
      obtain ⟨rfl, -⟩ := store_eq_pure hblocks
      obtain rfl := (pure_inj _ _).1 h
      refine ⟨[.ints b], rfl, fun x hx => ?_⟩
      rw [List.mem_singleton] at hx
      cases x with
      | processed i => rfl
      | numbers i => rfl
      | arraysLength i => rfl
      | ints i => exact List.getElem?_set_ne fun heq => hx (congrArg Location.ints heq.symm)

/-! ## `intermediate` -/

section Pieces

variable {env : Env} {call : BodyCall Local}

theorem nextFile_logs (h : nextFile env me mem = pure (call, mem')) : Logs me mem mem' := by
  obtain ⟨args, -, h⟩ := bind_eq_pure.1 h
  obtain ⟨file?, -, h⟩ := bind_eq_pure.1 h
  cases file? with
  | none =>
      obtain ⟨mem₁, hstop, h⟩ := bind_eq_pure.1 h
      obtain ⟨-, rfl⟩ := Prod.mk.inj ((pure_inj _ _).1 h)
      exact stopClock_logs hstop
  | some file =>
      obtain ⟨f, -, h⟩ := bind_eq_pure.1 h
      obtain ⟨⟨n, mem₁⟩, hread, h⟩ := bind_eq_pure.1 h
      obtain ⟨mem₂, hstop, h⟩ := bind_eq_pure.1 h
      obtain ⟨-, rfl⟩ := Prod.mk.inj ((pure_inj _ _).1 h)
      exact ((claim_logs file f mem).trans (readInto_logs hread)).trans (stopClock_logs hstop)

theorem innerLoop_logs {f : SortFrame} {leftStart : Int}
    (h : innerLoop env me f leftStart mem = pure (call, mem')) : Logs me mem mem' := by
  obtain ⟨last, -, h⟩ := bind_eq_pure.1 h
  split at h
  · obtain ⟨leftEnd, -, h⟩ := bind_eq_pure.1 h
    obtain ⟨width, -, h⟩ := bind_eq_pure.1 h
    obtain ⟨rightEnd, -, h⟩ := bind_eq_pure.1 h
    obtain ⟨mem₁, hmerge, h⟩ := bind_eq_pure.1 h
    obtain ⟨mem₂, hstop, h⟩ := bind_eq_pure.1 h
    obtain ⟨-, rfl⟩ := Prod.mk.inj ((pure_inj _ _).1 h)
    exact (mergeAt_logs hmerge).trans (stopClock_logs hstop)
  · obtain ⟨mem₁, hstop, h⟩ := bind_eq_pure.1 h
    obtain ⟨-, rfl⟩ := Prod.mk.inj ((pure_inj _ _).1 h)
    exact stopClock_logs hstop

theorem outerLoop_logs {view : View} {f : SortFrame}
    (h : outerLoop env view me f mem = pure (call, mem')) : Logs me mem mem' := by
  unfold outerLoop at h
  split at h
  · exact innerLoop_logs h
  · obtain ⟨mem₁, hset, h⟩ := bind_eq_pure.1 h
    exact (setSwitchCount_logs hset).trans (nextFile_logs h)

/-- **A coroutine that runs logs what it changes.** -/
theorem intermediate_logs {view : View} {l : Local}
    (h : intermediate env view l mem = pure (call, mem')) : Logs l.args mem mem' := by
  obtain ⟨mem₁, hstart, h⟩ := bind_eq_pure.1 h
  refine (startClock_logs hstart).trans ?_
  obtain ⟨me, resume⟩ := l
  cases resume with
  | start => exact nextFile_logs h
  | afterRead file n =>
      obtain ⟨f, -, h⟩ := bind_eq_pure.1 h
      obtain ⟨array, -, h⟩ := bind_eq_pure.1 h
      exact outerLoop_logs h
  | afterMerge f leftStart =>
      obtain ⟨width, -, h⟩ := bind_eq_pure.1 h
      obtain ⟨leftStart', -, h⟩ := bind_eq_pure.1 h
      exact innerLoop_logs h
  | afterPass f =>
      obtain ⟨currSize, -, h⟩ := bind_eq_pure.1 h
      exact outerLoop_logs h

end Pieces

end SysProg.MergeSort
