import SysProg.MergeSort.IndexedMerge
import SysProg.MergeSort.Mergesort

set_option autoImplicit false

/-! # The indices of `me_mergesort` (`1/solution/solution.c`)

The stretches of `me_mergesort` between two calls of `coro_yield` once more, with every `int`
expression evaluated in 32 bits, with `me_merge` on its indices, and with a record of the calls of
`me_merge`. The other coroutines may change whatever they like, even the integers of the array that
is being sorted: only its length counts. -/

namespace SysProg.MergeSort

open Libcoro Runs

/-! ## The function -/

/-- The arguments of a call of `me_merge`. -/
structure MergeCall where
  lhs : Int
  mid : Int
  rhs : Int

/-- The call is one for two neighbouring parts of an array of `n` elements. -/
def MergeCall.Within (c : MergeCall) (n : Nat) : Prop :=
  0 ≤ c.lhs ∧ c.lhs ≤ c.mid ∧ c.mid ≤ c.rhs ∧ c.rhs < n

/-- The memory, and the calls of `me_merge` so far. -/
structure SortState where
  mem : Mem
  calls : List MergeCall

/-- A call of `me_merge` on the array at `p`. -/
def mergeAtIndexed (me : Nat) (p : Option Nat) (lhs mid rhs : Int) (s : SortState) :
    C SortState :=
  match p with
  | none => throw .undefined
  | some b => do
    let array ← load s.mem.blocks b
    let array ← meMergeIndexed array lhs mid rhs
    let blocks ← store s.mem.blocks b array
    let mem := { s.mem with blocks := blocks, writes := s.mem.writes ++ [(me, .ints b)] }
    pure ⟨mem, s.calls ++ [⟨lhs, mid, rhs⟩]⟩

/-- From the head of the inner loop of `me_mergesort` to the next `coro_yield`. -/
def innerLoopIndexed (env : Env) (me : Nat) (f : SortFrame) (leftStart : Int) (s : SortState) :
    C (Option Local × SortState) := do
  let last ← int32 (f.rhs - 1)
  if leftStart < last then do
    let sum ← int32 (leftStart + f.currSize)
    let leftEnd ← int32 (sum - 1)
    let width ← int32 (2 * f.currSize)
    let sum ← int32 (leftStart + width)
    let rightEnd ← int32 (sum - 1)
    let s ← mergeAtIndexed me f.array leftStart (min leftEnd last) (min rightEnd last) s
    let mem ← stopClock env me s.mem
    pure (some ⟨me, .afterMerge f leftStart⟩, ⟨mem, s.calls⟩)
  else do
    let mem ← stopClock env me s.mem
    pure (some ⟨me, .afterPass f⟩, ⟨mem, s.calls⟩)

/-- From the head of the outer loop of `me_mergesort` to its next `coro_yield` or its end. -/
def outerLoopIndexed (env : Env) (view : View) (me : Nat) (f : SortFrame) (s : SortState) :
    C (Option Local × SortState) :=
  if f.currSize ≤ f.rhs then innerLoopIndexed env me f 0 s
  else do
    let mem ← setSwitchCount view f.this me s.mem
    pure (none, ⟨mem, s.calls⟩)

/-- `me_mergesort(array, 0, rhs, ..)` up to its first `coro_yield` or its end. -/
def meMergesortIndexed (env : Env) (view : View) (me file : Nat) (array : Option Nat) (rhs : Int)
    (s : SortState) : C (Option Local × SortState) :=
  outerLoopIndexed env view me
    { file := file, array := array, rhs := rhs, this := view.coroThis, currSize := 1 } s

/-- `me_mergesort` from one of its calls of `coro_yield` to the next one or its end. -/
def resumeIndexed (env : Env) (l : Local) (now : View × SortState) :
    C (Option Local × SortState) := do
  let mem ← startClock env l.args now.2.mem
  match l.resume with
  | .afterMerge f leftStart => do
    let width ← int32 (2 * f.currSize)
    let leftStart ← int32 (leftStart + width)
    innerLoopIndexed env l.args f leftStart ⟨mem, now.2.calls⟩
  | .afterPass f => do
    let currSize ← int32 (2 * f.currSize)
    outerLoopIndexed env now.1 l.args { f with currSize := currSize } ⟨mem, now.2.calls⟩
  | _ => throw .undefined

/-! ## One stretch of the inner loop -/

/-- `me_merge` of two neighbouring blocks of `w` elements. -/
theorem meMergeIndexed_blocks {a : List Int} {p w : Nat} (hp : p < a.length) (hw : 0 < w)
    (hint : a.length < 2 ^ 31) :
    meMergeIndexed a p (min (p + w - 1) (a.length - 1))
        (min (p + 2 * w - 1) (a.length - 1))
      = meMerge a p (min (p + w - 1) (a.length - 1))
        (min (p + 2 * w - 1) (a.length - 1)) := by
  obtain ⟨n, hn⟩ : ∃ n, n = min w (a.length - p) := ⟨_, rfl⟩
  obtain ⟨m, hm⟩ : ∃ m, m = min w (a.length - (p + w)) := ⟨_, rfl⟩
  have hmid : min ((p : Int) + w - 1) (a.length - 1) = p + n - 1 := by omega
  have hend : min ((p : Int) + 2 * w - 1) (a.length - 1) = p + n + m - 1 := by omega
  rw [hmid, hend]
  exact meMergeIndexed_run (by omega) (by omega) (by omega)

/-- In a pass over blocks of `w` elements the stretch is the one of `innerLoop`, no expression
    overflows, and `me_merge` is called on parts of the array. -/
theorem innerLoopIndexed_eq (env : Env) (me : Nat) {s : SortState} {j b : Nat} {a : List Int}
    (ha : s.mem.blocks[b]? = some a) (hsmall : a.length < 2 ^ 30) {f : SortFrame} {w : Nat} (r : Nat)
    (hf : f.Rep j b a w) :
    ∃ calls, (∀ c ∈ calls, MergeCall.Within c a.length) ∧
      innerLoopIndexed env me f ((2 * (r * w) : Nat) : Int) s = (do
        let (call, mem) ← innerLoop env me f ((2 * (r * w) : Nat) : Int) s.mem
        pure (waiting call, ⟨mem, s.calls ++ calls⟩)) := by
  have hw := pow_pos_of hf.pow
  have hle := hf.le
  have hw29 := pow_le_of_lt hf.pow (by omega)
  rw [innerLoopIndexed, innerLoop, hf.rhs, hf.currSize, int32_of_range (by omega) (by omega),
    pure_bind, pure_bind]
  split
  · next hlt =>
      have hmerge := meMergeIndexed_blocks (a := a) (p := 2 * (r * w)) (by omega) hw (by omega)
      refine ⟨[⟨((2 * (r * w) : Nat) : Int), min ((2 * (r * w) : Nat) + w - 1) (a.length - 1),
        min ((2 * (r * w) : Nat) + 2 * w - 1) (a.length - 1)⟩], ?_, ?_⟩
      · intro c hc
        rw [List.mem_singleton.1 hc, MergeCall.Within]
        simp only
        omega
      · have hmid : int32 ((2 * (r * w) : Nat) + (w : Int)) = pure _ :=
          int32_of_range (by omega) (by omega)
        have hleft : int32 ((2 * (r * w) : Nat) + (w : Int) - 1) = pure _ :=
          int32_of_range (by omega) (by omega)
        have hwidth : int32 (2 * (w : Int)) = pure _ := int32_of_range (by omega) (by omega)
        have hend : int32 ((2 * (r * w) : Nat) + 2 * (w : Int)) = pure _ :=
          int32_of_range (by omega) (by omega)
        have hright : int32 ((2 * (r * w) : Nat) + 2 * (w : Int) - 1) = pure _ :=
          int32_of_range (by omega) (by omega)
        simp only [hmid, hleft, hwidth, hend, hright, hf.array, mergeAtIndexed, mergeAt,
          load_run ha, hmerge, pure_bind, bind_assoc]
        rfl
  · refine ⟨[], fun c hc => absurd hc List.not_mem_nil, ?_⟩
    rw [bind_assoc, List.append_nil]
    rfl

/-! ## Whatever the others do -/

/-- What the others leave as it is while a coroutine with the arguments `me` waits in `me_mergesort`
    of the array at `b`: its length, and that there are such arguments; and the library answers the
    coroutine `j`. -/
structure LeavesLength (me j b : Nat) (s : SortState) (now : View × SortState) : Prop where
  view : Shows now.1 j
  length : (now.2.mem.blocks[b]?).map List.length = (s.mem.blocks[b]?).map List.length
  args : (s.mem.args[me]?).isSome = true → (now.2.mem.args[me]?).isSome = true
  calls : now.2.calls = s.calls

/-- Where the coroutine `j` waits in a pass over the array `a` at `b`. -/
def Resume.InPass (j b : Nat) (a : List Int) : Resume → Prop
  | .afterMerge f leftStart => ∃ w r, f.Rep j b a w ∧ leftStart = (2 * (r * w) : Nat) ∧
      2 * (r * w) + 1 < a.length
  | .afterPass f => ∃ w, f.Rep j b a w
  | _ => False

/-- A coroutine in `me_mergesort` of an array of `n` elements at `b`. -/
structure InRange (me j b n : Nat) (l : Local) (s : SortState) : Prop where
  args : l.args = me
  exists_args : (s.mem.args[me]?).isSome = true
  array : ∃ a, s.mem.blocks[b]? = some a ∧ a.length = n ∧ l.resume.InPass j b a
  calls : ∀ c ∈ s.calls, c.Within n

/-- What a stretch comes to, with fewer than `k` calls of `coro_yield` left. -/
abbrev StaysOn (me j b n k : Nat) (x : C (Option Local × SortState)) : Prop :=
  Run.Comes (fun s => ∀ c ∈ s.calls, c.Within n) (InRange me j b n) (fun l => pending (some l)) k x

section Stretches

variable {env : Env} {s : SortState} {me j b : Nat} {a : List Int}

theorem innerLoopIndexed_stays (env : Env) (hargs : (s.mem.args[me]?).isSome = true)
    (ha : s.mem.blocks[b]? = some a) (hsmall : a.length < 2 ^ 30)
    (hcalls : ∀ c ∈ s.calls, c.Within a.length) {f : SortFrame} {w r k : Nat}
    (hf : f.Rep j b a w)
    (hk : (a.length + 1 - w) * (a.length + 2) + (a.length - 2 * (r * w)) < k) :
    StaysOn me j b a.length k (innerLoopIndexed env me f ((2 * (r * w) : Nat) : Int) s) := by
  obtain ⟨q, hq⟩ := Option.isSome_iff_exists.1 hargs
  obtain ⟨calls, hnew, heq⟩ := innerLoopIndexed_eq env me ha hsmall r hf
  have hall : ∀ c ∈ s.calls ++ calls, c.Within a.length := fun c hc =>
    (List.mem_append.1 hc).elim (hcalls c) (hnew c)
  rw [heq]
  rcases innerLoop_step env hq ha hsmall r hf with
    ⟨hlt, mem', hrun, hagree⟩ | ⟨hge, mem', hrun, hagree⟩
  · have hlen := (overwrite_merge_perm a (2 * (r * w)) w w).length_eq
    refine Or.inr ⟨⟨me, .afterMerge f ((2 * (r * w) : Nat) : Int)⟩, ⟨mem', s.calls ++ calls⟩,
      by rw [hrun]; rfl, ⟨rfl, hagree.isSome_args hargs, ⟨_, ?_, hlen, w, r, hf.congr hlen, rfl,
        by rw [hlen]; exact hlt⟩, hall⟩, ?_⟩
    · rw [hagree.blocks_eq]
      exact List.getElem?_set_self (PoolInv.lt_of_get ha)
    · simp only [pending, hf.rhs, hf.currSize, Int.toNat_natCast]
      exact hk
  · refine Or.inr ⟨⟨me, .afterPass f⟩, ⟨mem', s.calls ++ calls⟩, by rw [hrun]; rfl,
      ⟨rfl, hagree.isSome_args hargs, ⟨a, ?_, rfl, w, hf⟩, hall⟩, ?_⟩
    · rw [hagree.blocks_eq]
      exact ha
    · simp only [pending, hf.rhs, hf.currSize, Int.toNat_natCast]
      omega

theorem outerLoopIndexed_stays {v : View} (hv : Shows v j)
    (hargs : (s.mem.args[me]?).isSome = true) (ha : s.mem.blocks[b]? = some a)
    (hsmall : a.length < 2 ^ 30) (hcalls : ∀ c ∈ s.calls, c.Within a.length) {f : SortFrame}
    {w k : Nat} (hf : f.Head j b a w)
    (hk : w ≤ a.length → (a.length + 1 - w) * (a.length + 2) + a.length < k) :
    StaysOn me j b a.length k (outerLoopIndexed env v me f s) := by
  unfold outerLoopIndexed
  rw [hf.rhs, hf.currSize]
  split
  · next hle =>
      have hrun := innerLoopIndexed_stays env hargs ha hsmall hcalls (r := 0) (k := k)
        ⟨hf.array, hf.rhs, hf.this, hf.currSize, hf.pow, by omega⟩
        (by rw [Nat.zero_mul]; exact hk (by omega))
      rw [Nat.zero_mul] at hrun
      exact hrun
  · obtain ⟨c, hc⟩ := hv.count
    obtain ⟨q, hq⟩ := Option.isSome_iff_exists.1 hargs
    obtain ⟨mem', hset, -⟩ := setSwitchCount_run hc hq
    exact Or.inl ⟨⟨mem', s.calls⟩, by rw [hf.this, hset]; rfl, hcalls⟩

/-- A stretch that starts after a `coro_yield` leaves fewer calls of `coro_yield` to come. -/
theorem resumeIndexed_stays {n : Nat} (hn : n < 2 ^ 30) {l : Local} {now : View × SortState}
    (hl : InRange me j b n l s) (hleaves : LeavesLength me j b s now) :
    StaysOn me j b n (pending (some l)) (resumeIndexed env l now) := by
  obtain ⟨hme, hargs, ⟨a0, ha0, rfl, hpass⟩, hcalls⟩ := hl
  have hlength := hleaves.length
  rw [ha0, Option.map_some, Option.map_eq_some_iff] at hlength
  obtain ⟨a, ha, hlen⟩ := hlength
  obtain ⟨q, hq⟩ := Option.isSome_iff_exists.1 (hleaves.args hargs)
  obtain ⟨mem', hstart, hagree⟩ := startClock_run env hq
  have hargs' := hagree.isSome_args (hleaves.args hargs)
  have ha' : mem'.blocks[b]? = some a := by rw [hagree.blocks_eq, ha]
  rw [← hleaves.calls] at hcalls
  rw [← hlen] at hn hcalls ⊢
  rw [resumeIndexed, hme, hstart, pure_bind]
  rcases hresume : l.resume with _ | ⟨i, m⟩ | ⟨f, leftStart⟩ | f
  · rw [hresume] at hpass
    exact hpass.elim
  · rw [hresume] at hpass
    exact hpass.elim
  · rw [hresume] at hpass
    obtain ⟨w, r, hf, rfl, hlt⟩ := hpass
    replace hf := hf.congr hlen
    rw [← hlen] at hlt
    have hw := pow_pos_of hf.pow
    have hsucc : (r + 1) * w = r * w + w := by ring
    simp only [hf.currSize]
    rw [twice_run hf.pow hf.le hn, pure_bind, nextStart_run r hf.pow hf.le hn hlt, pure_bind]
    refine innerLoopIndexed_stays (s := ⟨mem', now.2.calls⟩) env hargs' ha' hn hcalls hf ?_
    simp only [pending, hresume, hf.rhs, hf.currSize, Int.toNat_natCast]
    omega
  · rw [hresume] at hpass
    obtain ⟨w, hf⟩ := hpass
    replace hf := hf.congr hlen
    have hcast : 2 * (w : Int) = ((2 * w : Nat) : Int) := by omega
    simp only [hf.currSize]
    rw [twice_run hf.pow hf.le hn, pure_bind, hcast]
    refine outerLoopIndexed_stays (s := ⟨mem', now.2.calls⟩) hleaves.view hargs' ha' hn hcalls
      ⟨hf.array, hf.rhs, hf.this, rfl, twice_pow hf.pow⟩ (fun _ => ?_)
    have hcost := pass_cost (pow_pos_of hf.pow) hf.le
    simp only [pending, hresume, hf.rhs, hf.currSize, Int.toNat_natCast]
    omega

end Stretches

/-- **`me_mergesort` stays in range** on an array of fewer than `2 ^ 30` elements, whatever the other
    coroutines do at its calls of `coro_yield` to everything but the length of this array: it ends,
    so no `int` expression overflows and no index is out of bounds, and every call of `me_merge` is
    one for two neighbouring parts of the array. -/
theorem meMergesort_inBounds (env : Env) (v : View) (mem : Mem) (me j b file : Nat) (a : List Int)
    (hv : Shows v j) (hargs : (mem.args[me]?).isSome = true) (ha : mem.blocks[b]? = some a)
    (hsmall : a.length < 2 ^ 30) :
    Run.Finishes (resumeIndexed env) (LeavesLength me j b)
      (fun s => ∀ c ∈ s.calls, c.Within a.length)
      (meMergesortIndexed env v me file (some b) a.length ⟨mem, []⟩) := by
  have hhead : SortFrame.Head ⟨file, some b, a.length, v.coroThis, 1⟩ j b a 1 :=
    ⟨rfl, rfl, hv.this, rfl, 0, rfl⟩
  have hfirst : StaysOn me j b a.length _
      (meMergesortIndexed env v me file (some b) a.length ⟨mem, []⟩) :=
    outerLoopIndexed_stays hv hargs ha hsmall (fun c hc => absurd hc List.not_mem_nil) hhead
      (fun _ => Nat.lt_succ_self _)
  have hstep : ∀ l s now, InRange me j b a.length l s → LeavesLength me j b s now →
      StaysOn me j b a.length (pending (some l)) (resumeIndexed env l now) :=
    fun l s now hl hnow => resumeIndexed_stays hsmall hl hnow
  exact Run.Finishes.of_rank (InRange me j b a.length) (fun l => pending (some l)) hstep hfirst

theorem meMergesort_inBounds_three :
    Run.Finishes (resumeIndexed ⟨fun _ => none, fun _ => 0, fun _ => 0⟩) (LeavesLength 0 0 0)
      (fun s => ∀ c ∈ s.calls, c.Within ([3, 1, 2] : List Int).length)
      (meMergesortIndexed ⟨fun _ => none, fun _ => 0, fun _ => 0⟩ ⟨some (.node 0), fun _ => pure 0,
        fun _ => pure 0, fun _ => pure false⟩ 0 0 (some 0) (([3, 1, 2] : List Int).length : Int)
        ⟨threeInts, []⟩) :=
  meMergesort_inBounds _ _ threeInts 0 0 0 0 [3, 1, 2] ⟨rfl, 0, rfl⟩ rfl rfl (by decide)

end SysProg.MergeSort
