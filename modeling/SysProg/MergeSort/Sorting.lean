import SysProg.MergeSort.Mergesort

set_option autoImplicit false

/-! # Every piece of `intermediate` keeps the invariant

From any state of the pool a coroutine reaches its next `coro_yield`, or its end, without undefined
behaviour, and every `coro_yield` leaves less work. -/

namespace SysProg.MergeSort

open Libcoro Runs

/-! ## The work that is left -/

/-- As many calls of `coro_yield` are enough to read and sort a file of `n` integers. -/
def cost (n : Nat) : Nat := n * (n + 2) + n + 2

/-- The cost of each file that nobody has claimed. -/
def unclaimed (vals : List (List Int)) (own : Owners) : List Nat :=
  vals.mapIdx fun i vs => if (own i).isSome then 0 else cost vs.length

def work (vals : List (List Int)) (own : Owners) (ths : List (Option Local)) : Nat :=
  (unclaimed vals own).sum + (ths.map pending).sum

/-- The calls of `coro_yield` between two states of a coroutine. -/
def yields : Option Local → Nat
  | none => 0
  | some _ => 1

theorem sum_set {xs : List Nat} {i x : Nat} (h : xs[i]? = some x) (y : Nat) :
    (xs.set i y).sum + x = xs.sum + y := by
  induction xs generalizing i with
  | nil => cases h
  | cons z xs ih =>
      cases i with
      | zero =>
          obtain rfl : z = x := Option.some.inj h
          simp only [List.set_cons_zero, List.sum_cons]
          omega
      | succ i =>
          have hrec := ih (show xs[i]? = some x from h)
          simp only [List.set_cons_succ, List.sum_cons]
          omega

theorem work_set (vals : List (List Int)) (own : Owners) {ths : List (Option Local)} {j : Nat}
    {t : Option Local} (hl : ths[j]? = some t) (t' : Option Local) :
    work vals own (ths.set j t') + pending t = work vals own ths + pending t' := by
  have hget : (ths.map pending)[j]? = some (pending t) := by
    rw [List.getElem?_map, hl, Option.map_some]
  have hsum := sum_set hget (pending t')
  rw [work, work, List.map_set]
  omega

theorem work_claim {vals : List (List Int)} {own : Owners} (ths : List (Option Local)) {i : Nat}
    {vs : List Int} (hvs : vals[i]? = some vs) (hfree : own i = none) (q : Nat × Nat) :
    work vals (Function.update own i (some q)) ths + cost vs.length = work vals own ths := by
  have hget : (unclaimed vals own)[i]? = some (cost vs.length) := by
    rw [unclaimed, List.getElem?_mapIdx, hvs, Option.map_some, hfree]
    rfl
  have hset : unclaimed vals (Function.update own i (some q)) = (unclaimed vals own).set i 0 := by
    refine List.ext_getElem? fun k => ?_
    by_cases hk : i = k
    · subst hk
      rw [List.getElem?_set_self (PoolInv.lt_of_get hget), unclaimed, List.getElem?_mapIdx, hvs,
        Option.map_some, Function.update_self]
      rfl
    · rw [List.getElem?_set_ne hk, unclaimed, unclaimed, List.getElem?_mapIdx, List.getElem?_mapIdx,
        Function.update_of_ne (Ne.symm hk)]
  have hsum := sum_set hget 0
  rw [work, work, hset]
  omega

/-! ## The pieces -/

theorem getFileLoop_run {files : List CoroFile} (n : Nat) {i : Nat} (h : i + n = files.length) :
    (∃ k f, getFileLoop files i n = pure (some k) ∧ files[k]? = some f ∧ f.processed = false) ∨
    (getFileLoop files i n = pure none ∧ ∀ k f, i ≤ k → files[k]? = some f → f.processed = true) := by
  induction n generalizing i with
  | zero =>
      refine Or.inr ⟨rfl, fun k f hk hf => ?_⟩
      have hlt := PoolInv.lt_of_get hf
      omega
  | succ n ih =>
      have hi : i < files.length := by omega
      have hf : files[i]? = some files[i] := List.getElem?_eq_getElem hi
      rw [getFileLoop, load_run hf, pure_bind]
      cases hp : files[i].processed with
      | false =>
          rw [if_neg (by simp)]
          exact Or.inl ⟨i, files[i], rfl, hf, hp⟩
      | true =>
          rw [if_pos rfl]
          refine (ih (by omega)).imp_right ?_
          rintro ⟨hrun, hall⟩
          refine ⟨hrun, fun k f hk hkf => ?_⟩
          rcases Nat.eq_or_lt_of_le hk with rfl | hlt
          · rw [hf] at hkf
            obtain rfl := Option.some.inj hkf
            exact hp
          · exact hall k f hlt hkf

variable {env : Env} {vals : List (List Int)} {own : Owners} {mem : Mem}
  {ths : List (Option Local)} {j b : Nat} {l : Local} {a : List Int}

/-- The computation `x` of the coroutine `j` reaches a state of the pool with less work. -/
def Reaches (env : Env) (vals : List (List Int)) (own : Owners) (ths : List (Option Local)) (j : Nat)
    (x : C (BodyCall Local × Mem)) : Prop :=
  ∃ t mem own', x = pure (outcome t, mem) ∧ PoolInv env vals own' ⟨mem, ths.set j t⟩ ∧
    work vals own' (ths.set j t) + yields t ≤ work vals own ths

/-- The arguments of a coroutine. -/
theorem PoolInv.args_of (h : PoolInv env vals own ⟨mem, ths⟩) (hl : ths[j]? = some (some l)) :
    ∃ r, mem.args[j]? = some r ∧ r.filesLength = mem.files.length := by
  obtain ⟨r, hr, hlen⟩ := h.args j (PoolInv.lt_of_get hl)
  exact ⟨r, hr, hlen.trans h.files_length.symm⟩

theorem nextFile_run (h : PoolInv env vals own ⟨mem, ths⟩) (hl : ths[j]? = some (some l))
    (hfile : l.file? = none) : Reaches env vals own ths j (nextFile env j mem) := by
  obtain ⟨r, hr, hlen⟩ := h.args_of hl
  have hpending : pending (some l) = 0 := by
    rcases l with ⟨me, _ | _ | _ | _⟩
    · rfl
    all_goals cases hfile
  rw [nextFile, load_run hr, pure_bind, getFile, hlen]
  rcases getFileLoop_run mem.files.length (Nat.zero_add _) with ⟨i, f, hget, hf, hfree⟩ | ⟨hget, hall⟩
  · -- a file to claim
    have hi : i < vals.length := by
      rw [← h.files_length]
      exact PoolInv.lt_of_get hf
    have hvs : vals[i]? = some vals[i] := List.getElem?_eq_getElem hi
    obtain ⟨f0, hf0, hindex, hprocessed, hread⟩ := h.file i _ hvs
    obtain rfl : f = f0 := Option.some.inj (hf.symm.trans hf0)
    have hown : own i = none := by
      rw [hfree] at hprocessed
      exact Option.not_isSome_iff_eq_none.1 (by rw [← hprocessed]; simp)
    have hnum := PoolInv.lt_of_get (h.numbers i hi)
    obtain ⟨n, hn, -⟩ := h.lengths i _ hvs
    have hclaim := h.claim hl hfile hvs hown hf
    have hr' : (claimed j i f vals[i] mem).args[j]? = some r := hr
    obtain ⟨mem', hstop, hagree⟩ := stopClock_run env hr'
    refine ⟨some ⟨j, .afterRead i vals[i].length⟩, mem', _, ?_, hclaim.agree hagree, ?_⟩
    · have hinto : readInto env j f (claim j i f mem)
          = pure ((vals[i].length : Int), claimed j i f vals[i] mem) := by
        subst hindex
        simp only [readInto, hread, pure_bind, claim, store_run hnum,
          store_run (PoolInv.lt_of_get hn)]
        rfl
      simp only [hget, pure_bind, load_run hf, hinto, hstop]
      rfl
    · have hset := work_set vals (Function.update own i (some (j, mem.blocks.length))) hl
        (some ⟨j, .afterRead i vals[i].length⟩)
      have hwork := work_claim ths hvs hown (j, mem.blocks.length)
      rw [hpending] at hset
      simp only [yields, pending, cost, Int.toNat_natCast] at hset hwork ⊢
      omega
  · -- all files are claimed
    have hall' : ∀ i, i < vals.length → (own i).isSome = true := by
      intro i hi
      obtain ⟨f, hf, -, hprocessed, -⟩ := h.file i _ (List.getElem?_eq_getElem hi)
      rw [← hprocessed]
      exact hall i f (Nat.zero_le _) hf
    obtain ⟨mem', hstop, hagree⟩ := stopClock_run env hr
    refine ⟨none, mem', own, ?_, (h.finish hl hfile hall').agree hagree, ?_⟩
    · simp only [hget, pure_bind, hstop]
      rfl
    · have hset := work_set vals own hl none
      rw [hpending] at hset
      simp only [yields, pending] at hset ⊢
      omega

/-! ## Merging -/

theorem innerLoop_run (h : PoolInv env vals own ⟨mem, ths⟩) (hl : ths[j]? = some (some l))
    {f : SortFrame} (hfile : l.file? = some f.file) (hown : own f.file = some (j, b))
    (ha : mem.blocks[b]? = some a) (hsmall : a.length < 2 ^ 30) {w r : Nat} (hf : f.Rep j b a w)
    (hpass : Pass a w r)
    (hpending : (a.length + 1 - w) * (a.length + 2) + (a.length - 2 * (r * w)) + 1
      ≤ pending (some l)) :
    Reaches env vals own ths j (innerLoop env j f ((2 * (r * w) : Nat) : Int) mem) := by
  obtain ⟨q, hq, -⟩ := h.args_of hl
  rcases innerLoop_step env hq ha hsmall r hf with
    ⟨hlt, mem', hrun, hagree⟩ | ⟨hge, mem', hrun, hagree⟩
  · -- the next two blocks are merged
    have hperm := overwrite_merge_perm a (2 * (r * w)) w w
    have hlen := hperm.length_eq
    have hinv := h.sortStep hl hfile hown ha hperm [(j, .ints b)]
      (fun _ hw => List.mem_singleton.1 hw) ⟨j, .afterMerge f ((2 * (r * w) : Nat) : Int)⟩ rfl rfl
      ⟨w, r, hf.congr hlen, rfl, by rw [hlen]; exact hlt, hpass.next (by omega)⟩
    refine ⟨_, mem', own, hrun, hinv.agree hagree, ?_⟩
    have hset := work_set vals own hl (some ⟨j, .afterMerge f ((2 * (r * w) : Nat) : Int)⟩)
    have hafter : pending (some ⟨j, .afterMerge f ((2 * (r * w) : Nat) : Int)⟩)
        = (a.length + 1 - w) * (a.length + 2) + (a.length - 2 * (r * w)) := by
      simp only [pending, hf.rhs, hf.currSize, Int.toNat_natCast]
    simp only [yields]
    omega
  · -- the pass ends
    have hinv := h.sortRest hl hfile hown ha ⟨j, .afterPass f⟩ rfl rfl
      ⟨w, hf, hpass.blocks (by omega)⟩
    refine ⟨_, mem', own, hrun, hinv.agree hagree, ?_⟩
    have hset := work_set vals own hl (some ⟨j, .afterPass f⟩)
    have hafter : pending (some ⟨j, .afterPass f⟩)
        = (a.length + 1 - w) * (a.length + 2) := by
      simp only [pending, hf.rhs, hf.currSize, Int.toNat_natCast]
    simp only [yields]
    omega

theorem outerLoop_run (h : PoolInv env vals own ⟨mem, ths⟩) (hl : ths[j]? = some (some l))
    {v : View} (hv : Shows v j) {f : SortFrame} (hfile : l.file? = some f.file)
    (hown : own f.file = some (j, b)) (ha : mem.blocks[b]? = some a) (hsmall : a.length < 2 ^ 30)
    {w : Nat} (hf : f.Head j b a w) (hblocks : Blocks a w)
    (hpending : w ≤ a.length →
      (a.length + 1 - w) * (a.length + 2) + a.length + 1 ≤ pending (some l)) :
    Reaches env vals own ths j (outerLoop env v j f mem) := by
  unfold outerLoop
  rw [hf.rhs, hf.currSize]
  by_cases hle : w ≤ a.length
  · rw [if_pos (by omega)]
    have hrun := innerLoop_run h hl hfile hown ha hsmall
      ⟨hf.array, hf.rhs, hf.this, hf.currSize, hf.pow, hle⟩ hblocks.pass
      (by rw [Nat.zero_mul]; exact hpending hle)
    rw [Nat.zero_mul] at hrun
    exact hrun
  · -- one block holds the whole array
    rw [if_neg (by omega)]
    have hasc := hblocks 0
    rw [Nat.zero_mul, Nat.zero_add] at hasc
    have hinv := h.release hl hfile hown ha (sorted_of_asc hasc (by omega))
    have hj := PoolInv.lt_of_get hl
    obtain ⟨n, hn⟩ := hv.count
    obtain ⟨q, hq, -⟩ := h.args_of hl
    obtain ⟨mem', hset, hagree⟩ := setSwitchCount_run hn hq
    obtain ⟨t, mem'', own', hrun, hinv', hwork⟩ := nextFile_run (hinv.agree hagree)
      (List.getElem?_set_self hj) rfl
    rw [hf.this, hset, pure_bind]
    rw [List.set_set] at hinv' hwork
    refine ⟨t, mem'', own', hrun, hinv', ?_⟩
    have hrelease := work_set vals own hl (some ⟨j, .start⟩)
    have hstart : pending (some ⟨j, .start⟩) = 0 := rfl
    omega

/-! ## The whole coroutine -/

/-- The array a coroutine is at. -/
theorem PoolInv.at_work (h : PoolInv env vals own ⟨mem, ths⟩) (hl : ths[j]? = some (some l))
    {i : Nat} (hfile : l.file? = some i) : ∃ b a, own i = some (j, b) ∧ mem.blocks[b]? = some a ∧
      a.length < 2 ^ 30 ∧ l.resume.Sorts j b a := by
  obtain ⟨b, a, hown, ha, hsorts⟩ := (h.thread j l hl).2 i hfile
  obtain ⟨vs, a0, hvs, ha0, hperm, -⟩ := h.owned i j b hown
  obtain rfl : a = a0 := Option.some.inj (ha.symm.trans ha0)
  exact ⟨b, a, hown, ha, hperm.length_eq ▸ h.small i vs hvs, hsorts⟩

/-- **A coroutine that is resumed keeps the invariant** up to its next `coro_yield` or its end. -/
theorem intermediate_run (h : PoolInv env vals own ⟨mem, ths⟩) (hl : ths[j]? = some (some l))
    {v : View} (hv : Shows v j) : Reaches env vals own ths j (intermediate env v l mem) := by
  obtain ⟨hargs, -⟩ := h.thread j l hl
  obtain ⟨q, hq, -⟩ := h.args_of hl
  obtain ⟨mem', hstart, hagree⟩ := startClock_run env hq
  have hinv := h.agree hagree
  rw [intermediate, hargs, hstart, pure_bind]
  obtain ⟨me, resume⟩ := l
  obtain rfl : me = j := hargs
  cases resume with
  | start => exact nextFile_run hinv hl rfl
  | afterRead i n =>
      obtain ⟨b, a, hown, ha, hsmall, hsorts⟩ := hinv.at_work hl rfl
      obtain rfl : n = a.length := hsorts
      obtain ⟨hi, -⟩ := hinv.owned_lt hown
      obtain ⟨f, hf, hindex, -, -⟩ := hinv.file i _ (List.getElem?_eq_getElem hi)
      have hnum := hinv.numbers i hi
      rw [hown, Option.map_some] at hnum
      rw [← hindex] at hnum
      simp only [load_run hf, load_run hnum, pure_bind]
      refine outerLoop_run hinv hl hv rfl hown ha hsmall ⟨rfl, rfl, hv.this, rfl, 0, rfl⟩
        (blocks_one a) (fun _ => ?_)
      simp only [pending, Int.toNat_natCast, Nat.add_sub_cancel, Nat.le_refl]
  | afterMerge f leftStart =>
      obtain ⟨b, a, hown, ha, hsmall, w, r, hf, rfl, hlt, hpass⟩ := hinv.at_work hl rfl
      have hw := pow_pos_of hf.pow
      have hsucc : (r + 1) * w = r * w + w := by ring
      simp only [hf.currSize]
      rw [twice_run hf.pow hf.le hsmall, pure_bind, nextStart_run r hf.pow hf.le hsmall hlt, pure_bind]
      refine innerLoop_run hinv hl rfl hown ha hsmall hf hpass ?_
      simp only [pending, hf.rhs, hf.currSize, Int.toNat_natCast]
      omega
  | afterPass f =>
      obtain ⟨b, a, hown, ha, hsmall, w, hf, hblocks⟩ := hinv.at_work hl rfl
      have hcast : 2 * (w : Int) = ((2 * w : Nat) : Int) := by omega
      simp only [hf.currSize]
      rw [twice_run hf.pow hf.le hsmall, pure_bind, hcast]
      refine outerLoop_run hinv hl hv rfl hown ha hsmall
        ⟨hf.array, hf.rhs, hf.this, rfl, twice_pow hf.pow⟩ hblocks (fun _ => ?_)
      simp only [pending, hf.rhs, hf.currSize, Int.toNat_natCast]
      exact pass_cost (pow_pos_of hf.pow) hf.le

end SysProg.MergeSort
