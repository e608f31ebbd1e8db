import SysProg.Lib.Run
import SysProg.MergeSort.Pool

set_option autoImplicit false

/-! # `me_mergesort` on its own

`me_mergesort` gives way to the other coroutines after every merge and after every pass. Between the
calls of `coro_yield` each stretch of it merges one pair of blocks or ends a pass; whatever the others
do meanwhile to everything but its array, it ends, and the array is sorted. -/

namespace SysProg.MergeSort

open Libcoro Runs

/-! ## The function, cut at its calls of `coro_yield` -/

/-- Where a coroutine waits after a `coro_yield`. -/
def waiting : BodyCall Local → Option Local
  | .call (.yield l) => some l
  | _ => none

/-- From the head of the outer loop of `me_mergesort` to its next `coro_yield` or its end. -/
def sortOuter (env : Env) (view : View) (me : Nat) (f : SortFrame) (mem : Mem) :
    C (Option Local × Mem) :=
  if f.currSize ≤ f.rhs then do
    let (call, mem) ← innerLoop env me f 0 mem
    pure (waiting call, mem)
  else do
    let mem ← setSwitchCount view f.this me mem
    pure (none, mem)

/-- `me_mergesort(array, 0, rhs, ..)`, called by a coroutine with the arguments `me` for the file
    `file`, up to its first `coro_yield` or its end. -/
def meMergesort (env : Env) (view : View) (me file : Nat) (array : Option Nat) (rhs : Int)
    (mem : Mem) : C (Option Local × Mem) :=
  sortOuter env view me
    { file := file, array := array, rhs := rhs, this := view.coroThis, currSize := 1 } mem

/-- `me_mergesort` from one of its calls of `coro_yield` to the next one or its end. -/
def resumeSort (env : Env) (l : Local) (now : View × Mem) : C (Option Local × Mem) := do
  let mem ← startClock env l.args now.2
  match l.resume with
  | .afterMerge f leftStart => do
    let width ← int32 (2 * f.currSize)
    let leftStart ← int32 (leftStart + width)
    let (call, mem) ← innerLoop env l.args f leftStart mem
    pure (waiting call, mem)
  | .afterPass f => do
    let currSize ← int32 (2 * f.currSize)
    sortOuter env now.1 l.args { f with currSize := currSize } mem
  | _ => throw .undefined

/-- What `intermediate` does after a stretch of `me_mergesort`. -/
def afterSort (env : Env) (me : Nat) (r : Option Local × Mem) : C (BodyCall Local × Mem) :=
  match r.1 with
  | some l => pure (.call (.yield l), r.2)
  | none => nextFile env me r.2

theorem bind_innerLoop (env : Env) (me : Nat) (f : SortFrame) (leftStart : Int) (mem : Mem) :
    (do let (call, mem) ← innerLoop env me f leftStart mem
        afterSort env me (waiting call, mem)) = innerLoop env me f leftStart mem := by
  have hpure : ∀ (x : C Mem) (l : Local), (do
      let r ← (x >>= fun mem => pure (BodyCall.call (.yield l), mem))
      afterSort env me (waiting r.1, r.2)) = x >>= fun mem => pure (BodyCall.call (.yield l), mem) := by
    intro x l
    simp only [bind_assoc, pure_bind]
    rfl
  unfold innerLoop
  rw [bind_assoc]
  congr 1
  funext last
  split
  · simp only [bind_assoc]
    rfl
  · exact hpure _ _

/-- The stretches of `me_mergesort` are those of `intermediate`. -/
theorem outerLoop_eq (env : Env) (view : View) (me : Nat) (f : SortFrame) (mem : Mem) :
    outerLoop env view me f mem = sortOuter env view me f mem >>= afterSort env me := by
  unfold outerLoop sortOuter
  split
  · rw [bind_assoc]
    exact (bind_innerLoop env me f 0 mem).symm
  · rw [bind_assoc]
    rfl

theorem intermediate_eq (env : Env) (view : View) {l : Local} (mem : Mem)
    (hl : (∃ f leftStart, l.resume = .afterMerge f leftStart) ∨ ∃ f, l.resume = .afterPass f) :
    intermediate env view l mem = resumeSort env l (view, mem) >>= afterSort env l.args := by
  unfold intermediate resumeSort
  rw [bind_assoc]
  congr 1
  funext mem'
  rcases hl with ⟨f, leftStart, hl⟩ | ⟨f, hl⟩
  · simp only [hl, bind_assoc]
    congr 1
    funext width
    congr 1
    funext leftStart'
    exact (bind_innerLoop env l.args f leftStart' mem').symm
  · simp only [hl, bind_assoc, outerLoop_eq]

/-! ## The work that is left -/

/-- As many are enough for the file a coroutine is at. -/
def pending : Option Local → Nat
  | none => 0
  | some l =>
    match l.resume with
    | .start => 0
    | .afterRead _ n => n.toNat * (n.toNat + 2) + n.toNat + 1
    | .afterMerge f leftStart =>
      (f.rhs.toNat + 1 - f.currSize.toNat) * (f.rhs.toNat + 2) + (f.rhs.toNat - leftStart.toNat)
    | .afterPass f => (f.rhs.toNat + 1 - f.currSize.toNat) * (f.rhs.toNat + 2)

/-! ## Merging -/

theorem SortFrame.Rep.congr {f : SortFrame} {j b : Nat} {a a' : List Int} {w : Nat}
    (h : f.Rep j b a w)
    (hlen : a'.length = a.length) : f.Rep j b a' w :=
  ⟨h.array, by rw [hlen]; exact h.rhs, h.this, h.currSize, h.pow, by rw [hlen]; exact h.le⟩

/-- A block size that fits an array is at most `2 ^ 29`. -/
theorem pow_le_of_lt {w : Nat} (hpow : ∃ t, w = 2 ^ t) (hlt : w < 2 ^ 30) : w ≤ 2 ^ 29 := by
  obtain ⟨t, rfl⟩ := hpow
  have ht : t < 30 := (Nat.pow_lt_pow_iff_right (by decide)).1 hlt
  exact Nat.pow_le_pow_right (by decide) (by omega)

theorem pow_pos_of {w : Nat} (hpow : ∃ t, w = 2 ^ t) : 0 < w := by
  obtain ⟨t, rfl⟩ := hpow
  exact Nat.two_pow_pos t

/-- The memory after the coroutine `j` has stored `array` at `b`. -/
def stored (j b : Nat) (array : List Int) (mem : Mem) : Mem :=
  { mem with blocks := mem.blocks.set b array, writes := mem.writes ++ [(j, .ints b)] }

/-- The call of `me_merge` on the next two blocks. -/
theorem mergeAt_run {mem : Mem} {j b p w : Nat} {a : List Int} (ha : mem.blocks[b]? = some a)
    (hp : p < a.length) (hw : 0 < w)
    (hint : a.length < 2 ^ 31) :
    mergeAt j (some b) p (min (p + w - 1) (a.length - 1)) (min (p + 2 * w - 1) (a.length - 1)) mem
      = pure (stored j b (overwrite a p (merge (slice a p w) (slice a (p + w) w))) mem) := by
  simp only [mergeAt, load_run ha, pure_bind, meMerge_blocks hp hw hint,
    store_run (PoolInv.lt_of_get ha)]
  rfl

/-- The local variables of `me_mergesort` at the head of its outer loop. -/
structure SortFrame.Head (f : SortFrame) (j b : Nat) (a : List Int) (w : Nat) : Prop where
  array : f.array = some b
  rhs : f.rhs = a.length
  this : f.this = some (.node j)
  currSize : f.currSize = w
  pow : ∃ t, w = 2 ^ t

theorem twice_pow {w : Nat} (hpow : ∃ t, w = 2 ^ t) : ∃ t, 2 * w = 2 ^ t := by
  obtain ⟨t, rfl⟩ := hpow
  exact ⟨t + 1, by rw [Nat.pow_succ, Nat.mul_comm]⟩

/-- `2 * curr_size` fits `int`. -/
theorem twice_run {n w : Nat} (hpow : ∃ t, w = 2 ^ t) (hle : w ≤ n) (hsmall : n < 2 ^ 30) :
    int32 (2 * (w : Int)) = pure (2 * (w : Int)) := by
  have hw29 := pow_le_of_lt hpow (by omega)
  exact int32_of_range (by omega) (by omega)

/-- So does the start of the next two blocks. -/
theorem nextStart_run {n w : Nat} (r : Nat) (hpow : ∃ t, w = 2 ^ t) (hle : w ≤ n)
    (hsmall : n < 2 ^ 30) (hlt : 2 * (r * w) + 1 < n) :
    int32 (((2 * (r * w) : Nat) : Int) + 2 * (w : Int)) = pure ((2 * ((r + 1) * w) : Nat) : Int) := by
  have hw29 := pow_le_of_lt hpow (by omega)
  have hsucc : (r + 1) * w = r * w + w := by ring
  have hnext : ((2 * (r * w) : Nat) : Int) + 2 * (w : Int) = ((2 * ((r + 1) * w) : Nat) : Int) := by
    rw [hsucc]
    omega
  rw [hnext]
  exact int32_of_range (by omega) (by omega)

/-- A pass over blocks twice as long costs less. -/
theorem pass_cost {n w : Nat} (hw : 0 < w) (hle : w ≤ n) :
    (n + 1 - 2 * w) * (n + 2) + n + 1 ≤ (n + 1 - w) * (n + 2) := by
  have hlt : n + 1 - 2 * w + 1 ≤ n + 1 - w := by omega
  calc (n + 1 - 2 * w) * (n + 2) + n + 1 ≤ (n + 1 - 2 * w + 1) * (n + 2) := by
        rw [Nat.add_mul (n + 1 - 2 * w)]
        omega
    _ ≤ (n + 1 - w) * (n + 2) := Nat.mul_le_mul_right _ hlt

/-- A stretch in the inner loop: the next two blocks are merged, or the pass ends. -/
theorem innerLoop_step (env : Env) {mem : Mem} {me j b : Nat} {a : List Int} {q : CoroArgs}
    (hq : mem.args[me]? = some q) (ha : mem.blocks[b]? = some a) (hsmall : a.length < 2 ^ 30)
    {f : SortFrame} {w : Nat} (r : Nat) (hf : f.Rep j b a w) :
    (2 * (r * w) + 1 < a.length ∧ ∃ mem',
      innerLoop env me f ((2 * (r * w) : Nat) : Int) mem
        = pure (outcome (some ⟨me, .afterMerge f ((2 * (r * w) : Nat) : Int)⟩), mem') ∧
      (stored me b (overwrite a (2 * (r * w)) (merge (slice a (2 * (r * w)) w)
        (slice a (2 * (r * w) + w) w))) mem).Agree mem') ∨
    (a.length ≤ 2 * (r * w) + 1 ∧ ∃ mem',
      innerLoop env me f ((2 * (r * w) : Nat) : Int) mem
        = pure (outcome (some ⟨me, .afterPass f⟩), mem') ∧ mem.Agree mem') := by
  have hw := pow_pos_of hf.pow
  have hle := hf.le
  have hw29 := pow_le_of_lt hf.pow (by omega)
  rcases Nat.lt_or_ge (2 * (r * w) + 1) a.length with hlt | hge
  · have hrun := mergeAt_run (j := me) ha (show 2 * (r * w) < a.length by omega) hw (by omega)
    have hq' : (stored me b (overwrite a (2 * (r * w)) (merge (slice a (2 * (r * w)) w)
      (slice a (2 * (r * w) + w) w))) mem).args[me]? = some q := hq
    obtain ⟨mem', hstop, hagree⟩ := stopClock_run env hq'
    refine Or.inl ⟨hlt, mem', ?_, hagree⟩
    rw [innerLoop, hf.rhs, int32_of_range (by omega) (by omega), pure_bind, if_pos (by omega),
      hf.currSize, int32_of_range (by omega) (by omega), pure_bind,
      int32_of_range (by omega) (by omega), pure_bind, int32_of_range (by omega) (by omega),
      pure_bind, hf.array, hrun, pure_bind, hstop]
    rfl
  · obtain ⟨mem', hstop, hagree⟩ := stopClock_run env hq
    refine Or.inr ⟨hge, mem', ?_, hagree⟩
    rw [innerLoop, hf.rhs, int32_of_range (by omega) (by omega), pure_bind, if_neg (by omega), hstop]
    rfl

/-! ## Whatever the others do -/

/-- What the other coroutines leave as it is while a coroutine with the arguments `me` waits in
    `me_mergesort` of the array at `b`: the array, and that there are such arguments; and the library
    answers the coroutine `j`. -/
structure Leaves (me j b : Nat) (mem : Mem) (now : View × Mem) : Prop where
  view : Shows now.1 j
  array : now.2.blocks[b]? = mem.blocks[b]?
  args : (mem.args[me]?).isSome = true → (now.2.args[me]?).isSome = true

/-- A coroutine in `me_mergesort` of the array at `b`, whose integers were `vs`. -/
structure InSort (me j b : Nat) (vs : List Int) (l : Local) (mem : Mem) : Prop where
  args : l.args = me
  exists_args : (mem.args[me]?).isSome = true
  point : (∃ f leftStart, l.resume = .afterMerge f leftStart) ∨ ∃ f, l.resume = .afterPass f
  array : ∃ a, mem.blocks[b]? = some a ∧ a.Perm vs ∧ l.resume.Sorts j b a

/-- The array at `b` is sorted, and its integers are `vs`. -/
def Sorted (b : Nat) (vs : List Int) (mem : Mem) : Prop :=
  ∃ a, mem.blocks[b]? = some a ∧ a.Pairwise (· ≤ ·) ∧ a.Perm vs

/-- What a stretch of `me_mergesort` comes to, with fewer than `n` calls of `coro_yield` left. -/
abbrev SortsOn (me j b : Nat) (vs : List Int) (n : Nat) (x : C (Option Local × Mem)) : Prop :=
  Run.Comes (Sorted b vs) (InSort me j b vs) (fun l => pending (some l)) n x

section Stretches

variable {env : Env} {mem : Mem} {me j b : Nat} {a vs : List Int}

theorem Mem.Agree.isSome_args {mem mem' : Mem} (h : mem.Agree mem')
    (hargs : (mem.args[me]?).isSome = true) : (mem'.args[me]?).isSome = true := by
  obtain ⟨args, ticks, rfl, -, hget⟩ := h
  obtain ⟨r, hr⟩ := Option.isSome_iff_exists.1 hargs
  obtain ⟨r', hr', -⟩ := hget me r hr
  exact Option.isSome_iff_exists.2 ⟨r', hr'⟩

theorem Mem.Agree.blocks_eq {mem mem' : Mem} (h : mem.Agree mem') : mem'.blocks = mem.blocks := by
  obtain ⟨args, ticks, rfl, -, -⟩ := h
  rfl

theorem innerLoop_sorts (env : Env) (hargs : (mem.args[me]?).isSome = true)
    (ha : mem.blocks[b]? = some a)
    (hperm : a.Perm vs) (hsmall : a.length < 2 ^ 30) {f : SortFrame} {w r n : Nat}
    (hf : f.Rep j b a w) (hpass : Pass a w r)
    (hn : (a.length + 1 - w) * (a.length + 2) + (a.length - 2 * (r * w)) < n) :
    SortsOn me j b vs n (do
      let (call, mem) ← innerLoop env me f ((2 * (r * w) : Nat) : Int) mem
      pure (waiting call, mem)) := by
  obtain ⟨q, hq⟩ := Option.isSome_iff_exists.1 hargs
  rcases innerLoop_step env hq ha hsmall r hf with
    ⟨hlt, mem', hrun, hagree⟩ | ⟨hge, mem', hrun, hagree⟩
  · have hp := overwrite_merge_perm a (2 * (r * w)) w w
    refine Or.inr ⟨⟨me, .afterMerge f ((2 * (r * w) : Nat) : Int)⟩, mem', by rw [hrun]; rfl, ?_, ?_⟩
    · refine ⟨rfl, hagree.isSome_args hargs, Or.inl ⟨_, _, rfl⟩, _, ?_, hp.trans hperm, w, r,
        hf.congr hp.length_eq, rfl, by rw [hp.length_eq]; exact hlt, hpass.next (by omega)⟩
      rw [hagree.blocks_eq]
      exact List.getElem?_set_self (PoolInv.lt_of_get ha)
    · simp only [pending, hf.rhs, hf.currSize, Int.toNat_natCast]
      exact hn
  · refine Or.inr ⟨⟨me, .afterPass f⟩, mem', by rw [hrun]; rfl, ?_, ?_⟩
    · refine ⟨rfl, hagree.isSome_args hargs, Or.inr ⟨_, rfl⟩, a, ?_, hperm, w, hf,
        hpass.blocks (by omega)⟩
      rw [hagree.blocks_eq]
      exact ha
    · simp only [pending, hf.rhs, hf.currSize, Int.toNat_natCast]
      omega

theorem sortOuter_sorts {v : View} (hv : Shows v j) (hargs : (mem.args[me]?).isSome = true)
    (ha : mem.blocks[b]? = some a) (hperm : a.Perm vs) (hsmall : a.length < 2 ^ 30) {f : SortFrame}
    {w n : Nat} (hf : f.Head j b a w) (hblocks : Blocks a w)
    (hn : w ≤ a.length → (a.length + 1 - w) * (a.length + 2) + a.length < n) :
    SortsOn me j b vs n (sortOuter env v me f mem) := by
  unfold sortOuter
  rw [hf.rhs, hf.currSize]
  by_cases hle : w ≤ a.length
  · rw [if_pos (by omega)]
    have hrun := innerLoop_sorts env hargs ha hperm hsmall
      ⟨hf.array, hf.rhs, hf.this, hf.currSize, hf.pow, hle⟩ hblocks.pass
      (by rw [Nat.zero_mul]; exact hn hle)
    rw [Nat.zero_mul] at hrun
    exact hrun
  · -- one block holds the whole array
    rw [if_neg (by omega)]
    have hasc := hblocks 0
    rw [Nat.zero_mul, Nat.zero_add] at hasc
    obtain ⟨k, hk⟩ := hv.count
    obtain ⟨q, hq⟩ := Option.isSome_iff_exists.1 hargs
    obtain ⟨mem', hset, hagree⟩ := setSwitchCount_run hk hq
    refine Or.inl ⟨mem', by rw [hf.this, hset]; rfl, a, ?_, sorted_of_asc hasc (by omega), hperm⟩
    rw [hagree.blocks_eq]
    exact ha

/-- A stretch that starts after a `coro_yield` leaves fewer calls of `coro_yield` to come. -/
theorem resumeSort_sorts (hvs : vs.length < 2 ^ 30) {l : Local} {now : View × Mem}
    (hl : InSort me j b vs l mem) (hleaves : Leaves me j b mem now) :
    SortsOn me j b vs (pending (some l)) (resumeSort env l now) := by
  obtain ⟨hme, hargs, hpoint, a, ha, hperm, hsorts⟩ := hl
  have hsmall : a.length < 2 ^ 30 := by rw [hperm.length_eq]; exact hvs
  obtain ⟨q, hq⟩ := Option.isSome_iff_exists.1 (hleaves.args hargs)
  obtain ⟨mem', hstart, hagree⟩ := startClock_run env hq
  have hargs' := hagree.isSome_args (hleaves.args hargs)
  have ha' : mem'.blocks[b]? = some a := by rw [hagree.blocks_eq, hleaves.array, ha]
  rw [resumeSort, hme, hstart, pure_bind]
  rcases hpoint with ⟨f, leftStart, hpoint⟩ | ⟨f, hpoint⟩
  · rw [hpoint] at hsorts
    obtain ⟨w, r, hf, rfl, hlt, hpass⟩ := hsorts
    have hw := pow_pos_of hf.pow
    have hsucc : (r + 1) * w = r * w + w := by ring
    simp only [hpoint, hf.currSize]
    rw [twice_run hf.pow hf.le hsmall, pure_bind, nextStart_run r hf.pow hf.le hsmall hlt, pure_bind]
    refine innerLoop_sorts env hargs' ha' hperm hsmall hf hpass ?_
    simp only [pending, hpoint, hf.rhs, hf.currSize, Int.toNat_natCast]
    omega
  · rw [hpoint] at hsorts
    obtain ⟨w, hf, hblocks⟩ := hsorts
    have hcast : 2 * (w : Int) = ((2 * w : Nat) : Int) := by omega
    simp only [hpoint, hf.currSize]
    rw [twice_run hf.pow hf.le hsmall, pure_bind, hcast]
    refine sortOuter_sorts hleaves.view hargs' ha' hperm hsmall
      ⟨hf.array, hf.rhs, hf.this, rfl, twice_pow hf.pow⟩ hblocks (fun _ => ?_)
    have hcost := pass_cost (pow_pos_of hf.pow) hf.le
    simp only [pending, hpoint, hf.rhs, hf.currSize, Int.toNat_natCast]
    omega

end Stretches

/-- **`me_mergesort` sorts** an array of fewer than `2 ^ 30` integers and ends, whatever the other
    coroutines do at its calls of `coro_yield` to everything but this array. -/
theorem meMergesort_sorts (env : Env) (v : View) (mem : Mem) (me j b file : Nat) (a : List Int)
    (hv : Shows v j) (hargs : (mem.args[me]?).isSome = true) (ha : mem.blocks[b]? = some a)
    (hsmall : a.length < 2 ^ 30) :
    Run.Finishes (resumeSort env) (Leaves me j b)
      (fun mem' => ∃ a', mem'.blocks[b]? = some a' ∧ a'.Pairwise (· ≤ ·) ∧ a'.Perm a)
      (meMergesort env v me file (some b) a.length mem) := by
  have hhead : SortFrame.Head ⟨file, some b, a.length, v.coroThis, 1⟩ j b a 1 :=
    ⟨rfl, rfl, hv.this, rfl, 0, rfl⟩
  have hfirst : SortsOn me j b a _ (meMergesort env v me file (some b) a.length mem) :=
    sortOuter_sorts hv hargs ha (List.Perm.refl a) hsmall hhead (blocks_one a)
      (fun _ => Nat.lt_succ_self _)
  have hstep : ∀ l mem' now, InSort me j b a l mem' → Leaves me j b mem' now →
      SortsOn me j b a (pending (some l)) (resumeSort env l now) :=
    fun l mem' now hl hnow => resumeSort_sorts hsmall hl hnow
  exact Run.Finishes.of_rank (InSort me j b a) (fun l => pending (some l)) hstep hfirst

/-- The array 3, 1, 2 alone in the memory. -/
def threeInts : Mem :=
  { files := [], numbers := [], arraysLength := [], blocks := [[3, 1, 2]]
    args := [⟨0, 0, 0, 0⟩], ticks := 0, writes := [], output := [] }

theorem meMergesort_sorts_three :
    Run.Finishes (resumeSort ⟨fun _ => none, fun _ => 0, fun _ => 0⟩) (Leaves 0 0 0)
      (fun mem' => ∃ a', mem'.blocks[0]? = some a' ∧ a'.Pairwise (· ≤ ·) ∧ a'.Perm [3, 1, 2])
      (meMergesort ⟨fun _ => none, fun _ => 0, fun _ => 0⟩ ⟨some (.node 0), fun _ => pure 0,
        fun _ => pure 0, fun _ => pure false⟩ 0 0 (some 0) (([3, 1, 2] : List Int).length : Int)
        threeInts) :=
  meMergesort_sorts _ _ threeInts 0 0 0 0 [3, 1, 2] ⟨rfl, 0, rfl⟩ rfl rfl (by decide)

end SysProg.MergeSort
