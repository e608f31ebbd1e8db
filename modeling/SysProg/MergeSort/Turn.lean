import SysProg.MergeSort.Pool

set_option autoImplicit false

/-! # One turn of `intermediate`

Whatever the files hold, a coroutine that is resumed and gives up control again has read the clock
twice, right after it got control and right before it gives it up, and has gone from where it was
resumed to one of two places: the inner loop of `me_mergesort`, or the head of the loop of
`intermediate`, where it looks for the next file. -/

namespace SysProg.MergeSort

open Libcoro

/-! ## Where a turn leads -/

/-- The place a turn comes to before it gives up control. -/
inductive Place where
  /-- The head of the inner loop of `me_mergesort`. -/
  | inner (f : SortFrame) (leftStart : Int)
  /-- The head of the loop of `intermediate`; `me_mergesort`, with its `this`, may have returned on
      the way. -/
  | files (returned : Option (Option CoroPtr))

/-- The way of a coroutine from where it is resumed. -/
inductive Enters (this : Option CoroPtr) : Resume → Place → Prop
  | start : Enters this .start (.files none)
  /-- `me_mergesort` is called and starts its first pass. -/
  | sort {file : Nat} {n : Int} {array : Option Nat} (hn : 1 ≤ n) :
      Enters this (.afterRead file n) (.inner ⟨file, array, n, this, 1⟩ 0)
  /-- `me_mergesort` is called and returns at once. -/
  | empty {file : Nat} {n : Int} (hn : n < 1) :
      Enters this (.afterRead file n) (.files (some this))
  | merge {f : SortFrame} {leftStart : Int} :
      Enters this (.afterMerge f leftStart) (.inner f (leftStart + 2 * f.currSize))
  /-- The next pass. -/
  | pass {f : SortFrame} (h : 2 * f.currSize ≤ f.rhs) :
      Enters this (.afterPass f) (.inner { f with currSize := 2 * f.currSize } 0)
  | sorted {f : SortFrame} (h : f.rhs < 2 * f.currSize) :
      Enters this (.afterPass f) (.files (some f.this))

/-- What becomes of the switch count in the arguments of a coroutine. -/
def Samples (view : View) (old : Int) : Place → Int → Prop
  | .files (some this) => fun n => ∃ c, this = some c ∧ view.coroSwitchCount c = pure n
  | _ => fun n => n = old

/-- The arguments of a coroutine after a turn in which it read the clock for the times `t` and
    `t + 1`. -/
def CoroArgs.turn (env : Env) (t : Nat) (n : Int) (q : CoroArgs) : CoroArgs :=
  { q with
    switchCount := n
    tInvoked := env.clock t
    tSummary := q.tSummary + (env.clock (t + 1) - env.clock t) }

/-- How a turn of the coroutine with the arguments `q` at `me` ends. -/
inductive Ends (env : Env) (me : Nat) (q : CoroArgs) (mem mem' : Mem) : Place → BodyCall Local → Prop
  | merge {f : SortFrame} {leftStart : Int} (h : leftStart < f.rhs - 1)
      (hfiles : mem'.files = mem.files)
      (hclaims : ∀ i, claimants mem'.writes i = claimants mem.writes i) :
      Ends env me q mem mem' (.inner f leftStart) (.call (.yield ⟨me, .afterMerge f leftStart⟩))
  | pass {f : SortFrame} {leftStart : Int} (h : f.rhs - 1 ≤ leftStart)
      (hfiles : mem'.files = mem.files)
      (hclaims : ∀ i, claimants mem'.writes i = claimants mem.writes i) :
      Ends env me q mem mem' (.inner f leftStart) (.call (.yield ⟨me, .afterPass f⟩))
  /-- A file is claimed and read. -/
  | read {returned : Option (Option CoroPtr)} {file : Nat} {f : CoroFile} {vs : List Int}
      (hf : mem.files[file]? = some f) (hfree : f.processed = false)
      (hread : readFile env f.name = pure (vs, (vs.length : Int)))
      (hfiles : mem'.files = mem.files.set file { f with processed := true })
      (hclaims : ∀ i, claimants mem'.writes i
        = claimants mem.writes i ++ if i = file then [me] else []) :
      Ends env me q mem mem' (.files returned) (.call (.yield ⟨me, .afterRead file vs.length⟩))
  /-- Every file is claimed. -/
  | ret {returned : Option (Option CoroPtr)}
      (hall : ∀ (i : Nat) f, i < q.filesLength → mem.files[i]? = some f → f.processed = true)
      (hfiles : mem'.files = mem.files)
      (hclaims : ∀ i, claimants mem'.writes i = claimants mem.writes i) :
      Ends env me q mem mem' (.files returned) (.ret 0)

/-! ## Inversion of the pieces -/

section Pieces

variable {env : Env} {view : View} {me : Nat} {mem mem' : Mem} {call : BodyCall Local}

theorem startClock_cases (h : startClock env me mem = pure mem') :
    ∃ q, mem.args[me]? = some q ∧
      mem' = { mem with
        args := mem.args.set me { q with tInvoked := env.clock mem.ticks }
        ticks := mem.ticks + 1 } := by
  obtain ⟨q, hq, h⟩ := bind_eq_pure.1 h
  obtain ⟨args, hargs, h⟩ := bind_eq_pure.1 h
  obtain ⟨rfl, -⟩ := store_eq_pure hargs
  exact ⟨q, load_eq_pure hq, ((pure_inj _ _).1 h).symm⟩

theorem stopClock_cases (h : stopClock env me mem = pure mem') :
    ∃ q, mem.args[me]? = some q ∧
      mem' = { mem with
        args := mem.args.set me
          { q with tSummary := q.tSummary + (env.clock mem.ticks - q.tInvoked) }
        ticks := mem.ticks + 1 } := by
  obtain ⟨q, hq, h⟩ := bind_eq_pure.1 h
  obtain ⟨args, hargs, h⟩ := bind_eq_pure.1 h
  obtain ⟨rfl, -⟩ := store_eq_pure hargs
  exact ⟨q, load_eq_pure hq, ((pure_inj _ _).1 h).symm⟩

theorem setSwitchCount_cases {this : Option CoroPtr}
    (h : setSwitchCount view this me mem = pure mem') :
    ∃ c n q, this = some c ∧ view.coroSwitchCount c = pure n ∧ mem.args[me]? = some q ∧
      mem' = { mem with args := mem.args.set me { q with switchCount := n } } := by
  unfold setSwitchCount at h
  split at h
  · cases h
  · next c =>
      obtain ⟨n, hn, h⟩ := bind_eq_pure.1 h
      obtain ⟨q, hq, h⟩ := bind_eq_pure.1 h
      obtain ⟨args, hargs, h⟩ := bind_eq_pure.1 h
      obtain ⟨rfl, -⟩ := store_eq_pure hargs
      exact ⟨c, n, q, rfl, hn, load_eq_pure hq, ((pure_inj _ _).1 h).symm⟩

theorem getFileLoop_cases {files : List CoroFile} {r : Option Nat} (n : Nat) {i : Nat}
    (h : getFileLoop files i n = pure r) :
    (∃ file f, r = some file ∧ files[file]? = some f ∧ f.processed = false) ∨
    (r = none ∧ ∀ (k : Nat) f, i ≤ k → k < i + n → files[k]? = some f → f.processed = true) := by
  induction n generalizing i with
  | zero =>
      refine Or.inr ⟨((pure_inj _ _).1 h).symm, fun k f hk hlt => ?_⟩
      omega
  | succ n ih =>
      obtain ⟨f, hf, h⟩ := bind_eq_pure.1 h
      have hf' := load_eq_pure hf
      by_cases hp : f.processed = true
      · rw [if_pos hp] at h
        refine (ih h).imp_right ?_
        rintro ⟨hr, hall⟩
        refine ⟨hr, fun k g hk hlt hg => ?_⟩
        rcases Nat.eq_or_lt_of_le hk with rfl | hlt'
        · rw [hf'] at hg
          rwa [← Option.some.inj hg]
        · exact hall k g hlt' (by omega) hg
      · rw [if_neg hp] at h
        exact Or.inl ⟨i, f, ((pure_inj _ _).1 h).symm, hf', Bool.eq_false_iff.2 hp⟩

theorem mergeAt_cases {p : Option Nat} {lhs mid rhs : Int}
    (h : mergeAt me p lhs mid rhs mem = pure mem') :
    mem'.args = mem.args ∧ mem'.ticks = mem.ticks ∧ mem'.files = mem.files ∧
      ∀ i, claimants mem'.writes i = claimants mem.writes i := by
  unfold mergeAt at h
  split at h
  · cases h
  · next b =>
      obtain ⟨a, -, h⟩ := bind_eq_pure.1 h
      obtain ⟨a', -, h⟩ := bind_eq_pure.1 h
      obtain ⟨blocks, -, h⟩ := bind_eq_pure.1 h
      rw [← (pure_inj _ _).1 h]
      refine ⟨rfl, rfl, rfl, fun i => ?_⟩
      have hnone : claimants [(me, .ints b)] i = [] :=
        claimants_ints (fun w hw => List.mem_singleton.1 hw) i
      show claimants (mem.writes ++ _) i = _
      rw [claimants_append, hnone, List.append_nil]

/-- The inner loop of `me_mergesort`, up to the `stopClock` before it gives up control. -/
theorem innerLoop_cases {f : SortFrame} {leftStart : Int}
    (h : innerLoop env me f leftStart mem = pure (call, mem')) (q : CoroArgs) :
    ∃ mem1, mem1.args = mem.args ∧ mem1.ticks = mem.ticks ∧ stopClock env me mem1 = pure mem' ∧
      Ends env me q mem mem1 (.inner f leftStart) call := by
  obtain ⟨last, hlast, h⟩ := bind_eq_pure.1 h
  obtain ⟨rfl, -, -⟩ := int32_eq_pure hlast
  by_cases hlt : leftStart < f.rhs - 1
  · rw [if_pos hlt] at h
    obtain ⟨leftEnd, -, h⟩ := bind_eq_pure.1 h
    obtain ⟨width, -, h⟩ := bind_eq_pure.1 h
    obtain ⟨rightEnd, -, h⟩ := bind_eq_pure.1 h
    obtain ⟨mem1, hmerge, h⟩ := bind_eq_pure.1 h
    obtain ⟨mem2, hstop, h⟩ := bind_eq_pure.1 h
    obtain ⟨rfl, rfl⟩ := Prod.mk.inj ((pure_inj _ _).1 h)
    obtain ⟨hargs, hticks, hfiles, hclaims⟩ := mergeAt_cases hmerge
    exact ⟨mem1, hargs, hticks, hstop, .merge hlt hfiles hclaims⟩
  · rw [if_neg hlt] at h
    obtain ⟨mem2, hstop, h⟩ := bind_eq_pure.1 h
    obtain ⟨rfl, rfl⟩ := Prod.mk.inj ((pure_inj _ _).1 h)
    exact ⟨mem, rfl, rfl, hstop, .pass (not_lt.1 hlt) rfl fun _ => rfl⟩

theorem readInto_cases {f : CoroFile} {n : Int} (h : readInto env me f mem = pure (n, mem')) :
    ∃ vs, n = vs.length ∧ readFile env f.name = pure (vs, (vs.length : Int)) ∧
      mem'.args = mem.args ∧ mem'.ticks = mem.ticks ∧ mem'.files = mem.files ∧
      ∀ i, claimants mem'.writes i = claimants mem.writes i := by
  obtain ⟨⟨vs, len⟩, hread, h⟩ := bind_eq_pure.1 h
  obtain ⟨numbers, -, h⟩ := bind_eq_pure.1 h
  obtain ⟨lengths, -, h⟩ := bind_eq_pure.1 h
  obtain ⟨rfl, rfl⟩ := Prod.mk.inj ((pure_inj _ _).1 h)
  obtain ⟨rfl, -⟩ := readFile_length hread
  refine ⟨vs, rfl, hread, rfl, rfl, rfl, fun i => ?_⟩
  rw [claimants_append]
  simp [claimants]

/-- The loop of `intermediate`, up to the `stopClock` before it gives up control. -/
theorem nextFile_cases (h : nextFile env me mem = pure (call, mem'))
    (returned : Option (Option CoroPtr)) :
    ∃ q mem1, mem.args[me]? = some q ∧ mem1.args = mem.args ∧ mem1.ticks = mem.ticks ∧
      stopClock env me mem1 = pure mem' ∧ Ends env me q mem mem1 (.files returned) call := by
  obtain ⟨q, hq, h⟩ := bind_eq_pure.1 h
  obtain ⟨r, hget, h⟩ := bind_eq_pure.1 h
  refine ⟨q, ?_⟩
  rcases getFileLoop_cases _ hget with ⟨file, f, rfl, hf, hfree⟩ | ⟨rfl, hall⟩
  · obtain ⟨f', hf', h⟩ := bind_eq_pure.1 h
    obtain rfl : f = f' := Option.some.inj (hf.symm.trans (load_eq_pure hf'))
    obtain ⟨⟨n, mem1⟩, hread, h⟩ := bind_eq_pure.1 h
    obtain ⟨mem2, hstop, h⟩ := bind_eq_pure.1 h
    obtain ⟨rfl, rfl⟩ := Prod.mk.inj ((pure_inj _ _).1 h)
    obtain ⟨vs, rfl, hvs, hargs, hticks, hfiles, hclaims⟩ := readInto_cases hread
    refine ⟨mem1, load_eq_pure hq, hargs, hticks, hstop, .read hf hfree hvs hfiles fun i => ?_⟩
    rw [hclaims, claim, claimants_append]
    congr 1
    simp only [claimants, List.filterMap_cons, List.filterMap_nil, Location.processed.injEq]
    by_cases hi : file = i
    · rw [if_pos hi, if_pos hi.symm]
    · rw [if_neg hi, if_neg (Ne.symm hi)]
  · obtain ⟨mem2, hstop, h⟩ := bind_eq_pure.1 h
    obtain ⟨rfl, rfl⟩ := Prod.mk.inj ((pure_inj _ _).1 h)
    refine ⟨mem, load_eq_pure hq, rfl, rfl, hstop, .ret (fun i f hi => ?_) rfl fun _ => rfl⟩
    exact hall i f (Nat.zero_le _) (by rwa [Nat.zero_add])

/-- How a turn ends depends on the files and the claims only. -/
theorem Ends.congr {mem0 mem1 mem1' : Mem} {q q0 : CoroArgs} {place : Place}
    (h : Ends env me q mem mem1 place call) (hfiles : mem0.files = mem.files)
    (hwrites : mem0.writes = mem.writes) (hfiles' : mem1'.files = mem1.files)
    (hwrites' : mem1'.writes = mem1.writes) (hlen : q0.filesLength = q.filesLength) :
    Ends env me q0 mem0 mem1' place call := by
  cases h with
  | merge h hf hc =>
      exact .merge h (by rw [hfiles', hfiles, hf]) fun i => by rw [hwrites', hwrites, hc i]
  | pass h hf hc =>
      exact .pass h (by rw [hfiles', hfiles, hf]) fun i => by rw [hwrites', hwrites, hc i]
  | read hget hfree hread hf hc =>
      exact .read (hfiles ▸ hget) hfree hread (by rw [hfiles', hfiles, hf])
        fun i => by rw [hwrites', hwrites, hc i]
  | ret hall hf hc =>
      exact .ret (by rw [hlen, hfiles]; exact hall) (by rw [hfiles', hfiles, hf])
        fun i => by rw [hwrites', hwrites, hc i]

/-- The second reading of the clock. -/
theorem stopClock_turn {mem1 : Mem} {q : CoroArgs} {n : Int} (hq : mem.args[me]? = some q)
    (hargs : mem1.args
      = mem.args.set me { q with tInvoked := env.clock mem.ticks, switchCount := n })
    (hticks : mem1.ticks = mem.ticks + 1) (h : stopClock env me mem1 = pure mem') :
    mem'.args = mem.args.set me (q.turn env mem.ticks n) ∧ mem'.ticks = mem.ticks + 2 ∧
      mem'.files = mem1.files ∧ mem'.writes = mem1.writes := by
  obtain ⟨q', hq', rfl⟩ := stopClock_cases h
  rw [hargs, List.getElem?_set_self (PoolInv.lt_of_get hq)] at hq'
  obtain rfl := Option.some.inj hq'
  refine ⟨?_, by rw [hticks], rfl, rfl⟩
  simp only [hargs, hticks, List.set_set]
  rfl

end Pieces

/-! ## The whole turn -/

/-- A turn of the coroutine at `l`, from `mem` to `mem'`. -/
structure Turn (env : Env) (view : View) (l : Local) (mem mem' : Mem) (q : CoroArgs) (place : Place)
    (n : Int) (call : BodyCall Local) : Prop where
  enters : Enters view.coroThis l.resume place
  get : mem.args[l.args]? = some q
  samples : Samples view q.switchCount place n
  args : mem'.args = mem.args.set l.args (q.turn env mem.ticks n)
  ticks : mem'.ticks = mem.ticks + 2
  ends : Ends env l.args q mem mem' place call

section Turns

variable {env : Env} {view : View} {l : Local} {mem mem' mem1 : Mem} {call : BodyCall Local}
  {q : CoroArgs}

/-- A turn that leads to the inner loop of `me_mergesort`. -/
theorem innerLoop_turn {f : SortFrame} {leftStart : Int}
    (henters : Enters view.coroThis l.resume (.inner f leftStart))
    (hq : mem.args[l.args]? = some q)
    (h : innerLoop env l.args f leftStart { mem with
      args := mem.args.set l.args { q with tInvoked := env.clock mem.ticks }
      ticks := mem.ticks + 1 } = pure (call, mem')) :
    ∃ place n, Turn env view l mem mem' q place n call := by
  obtain ⟨mem2, hargs, hticks, hstop, hends⟩ := innerLoop_cases h q
  obtain ⟨hargs', hticks', hfiles', hwrites'⟩ :=
    stopClock_turn (n := q.switchCount) hq hargs hticks hstop
  exact ⟨_, _, henters, hq, rfl, hargs', hticks', hends.congr rfl rfl hfiles' hwrites' rfl⟩

/-- A turn that leads to the head of the loop of `intermediate`. -/
theorem nextFile_turn {r : Option (Option CoroPtr)} {n : Int}
    (henters : Enters view.coroThis l.resume (.files r))
    (hq : mem.args[l.args]? = some q) (hsamples : Samples view q.switchCount (.files r) n)
    (h : nextFile env l.args { mem with
      args := mem.args.set l.args { q with tInvoked := env.clock mem.ticks, switchCount := n }
      ticks := mem.ticks + 1 } = pure (call, mem')) :
    ∃ place n, Turn env view l mem mem' q place n call := by
  obtain ⟨q', mem2, hq', hargs, hticks, hstop, hends⟩ := nextFile_cases h r
  rw [List.getElem?_set_self (PoolInv.lt_of_get hq)] at hq'
  obtain rfl := Option.some.inj hq'
  obtain ⟨hargs', hticks', hfiles', hwrites'⟩ := stopClock_turn (n := n) hq hargs hticks hstop
  exact ⟨_, _, henters, hq, hsamples, hargs', hticks', hends.congr rfl rfl hfiles' hwrites' rfl⟩

theorem outerLoop_turn {f : SortFrame}
    (hinner : f.currSize ≤ f.rhs → Enters view.coroThis l.resume (.inner f 0))
    (hfiles : f.rhs < f.currSize → Enters view.coroThis l.resume (.files (some f.this)))
    (hq : mem.args[l.args]? = some q)
    (h : outerLoop env view l.args f { mem with
      args := mem.args.set l.args { q with tInvoked := env.clock mem.ticks }
      ticks := mem.ticks + 1 } = pure (call, mem')) :
    ∃ place n, Turn env view l mem mem' q place n call := by
  unfold outerLoop at h
  split at h
  · next hle => exact innerLoop_turn (hinner hle) hq h
  · next hgt =>
      obtain ⟨mem2, hset, h⟩ := bind_eq_pure.1 h
      obtain ⟨c, n, q', hthis, hn, hq', rfl⟩ := setSwitchCount_cases hset
      rw [List.getElem?_set_self (PoolInv.lt_of_get hq)] at hq'
      obtain rfl := Option.some.inj hq'
      refine nextFile_turn (hfiles (not_le.1 hgt)) hq ⟨c, hthis, hn⟩ ?_
      simpa only [List.set_set] using h

/-- **Everything a turn can do.** -/
theorem intermediate_turn (h : intermediate env view l mem = pure (call, mem')) :
    ∃ q place n, Turn env view l mem mem' q place n call := by
  obtain ⟨mem1, hstart, h⟩ := bind_eq_pure.1 h
  obtain ⟨q, hq, rfl⟩ := startClock_cases hstart
  refine ⟨q, ?_⟩
  cases hresume : l.resume with
  | start =>
      simp only [hresume] at h
      refine nextFile_turn (r := none) (n := q.switchCount) ?_ hq rfl h
      rw [hresume]
      exact .start
  | afterRead file n =>
      simp only [hresume] at h
      obtain ⟨f, -, h⟩ := bind_eq_pure.1 h
      obtain ⟨array, -, h⟩ := bind_eq_pure.1 h
      exact outerLoop_turn (fun hle => hresume ▸ .sort hle) (fun hlt => hresume ▸ .empty hlt) hq h
  | afterMerge f leftStart =>
      simp only [hresume] at h
      obtain ⟨width, hwidth, h⟩ := bind_eq_pure.1 h
      obtain ⟨rfl, -, -⟩ := int32_eq_pure hwidth
      obtain ⟨next, hnext, h⟩ := bind_eq_pure.1 h
      obtain ⟨rfl, -, -⟩ := int32_eq_pure hnext
      exact innerLoop_turn (hresume ▸ .merge) hq h
  | afterPass f =>
      simp only [hresume] at h
      obtain ⟨width, hwidth, h⟩ := bind_eq_pure.1 h
      obtain ⟨rfl, -, -⟩ := int32_eq_pure hwidth
      exact outerLoop_turn (fun hle => hresume ▸ .pass hle) (fun hlt => hresume ▸ .sorted hlt) hq h

end Turns

end SysProg.MergeSort
