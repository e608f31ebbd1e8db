import SysProg.Lib.Recording
import SysProg.MergeSort.Output

set_option autoImplicit false

/-! # What `write_result_to_file` reads (`1/solution/solution.c`)

The same function, with an entry `(i, j)` for every element `array[i][j]` it reads, made before the
element is looked up. The scans read a row only behind the check of its iterator; the very first read,
of `array[0][0]`, is behind no check. -/

namespace SysProg.MergeSort

open Recording

/-! ## The function, with a record of its reads -/

/-- A computation that records the elements it reads. -/
abbrev Reading := Recording Stop (Nat × Int)

/-- `array[i][j]`. -/
def cellRead (blocks : List (List Int)) (array : List (Option Nat)) (i : Nat) (j : Int) :
    Reading Int := do
  record (i, j)
  cell blocks array i j

/-- `array[i][iters[i]]`. -/
def currentRead (blocks : List (List Int)) (array : List (Option Nat)) (iters : List Int) (i : Nat) :
    Reading Int := do
  let it ← load iters i
  cellRead blocks array i it

/-- The first scan. -/
def takeAvailableRead (blocks : List (List Int)) (array : List (Option Nat))
    (sizes iters : List Int) : Nat → Nat → Int → Int → Reading (Int × Int)
  | 0, _, min, minIdx => pure (min, minIdx)
  | n + 1, i, min, minIdx => do
    if ← available sizes iters i then do
      let v ← currentRead blocks array iters i
      takeAvailableRead blocks array sizes iters n (i + 1) v i
    else takeAvailableRead blocks array sizes iters n (i + 1) min minIdx

/-- The second scan. -/
def takeMinRead (blocks : List (List Int)) (array : List (Option Nat)) (sizes iters : List Int) :
    Nat → Nat → Int → Int → Reading (Int × Int)
  | 0, _, min, minIdx => pure (min, minIdx)
  | n + 1, i, min, minIdx => do
    if ← available sizes iters i then do
      let v ← currentRead blocks array iters i
      if v < min then takeMinRead blocks array sizes iters n (i + 1) v i
      else takeMinRead blocks array sizes iters n (i + 1) min minIdx
    else takeMinRead blocks array sizes iters n (i + 1) min minIdx

/-- The loop of `write_result_to_file`. -/
def writeLoopRead (blocks : List (List Int)) (array : List (Option Nat)) (sizes : List Int)
    (size : Nat) : Nat → Int → List Int → Int → List Int → Reading (List Int)
  | 0, _, _, _, _ => liftM (throw .diverge : C (List Int))
  | fuel + 1, zeros, iters, min, out =>
    if 0 < zeros then do
      let (min, minIdx) ← takeAvailableRead blocks array sizes iters size 0 min (-1)
      if minIdx = -1 then pure out
      else do
        let (min, minIdx) ← takeMinRead blocks array sizes iters size 0 min minIdx
        let it ← load iters minIdx
        let it ← int32 (it + 1)
        let iters ← store iters minIdx it
        let sz ← load sizes minIdx
        let zeros := if sz ≤ it then zeros - 1 else zeros
        writeLoopRead blocks array sizes size fuel zeros iters min (out ++ [min])
    else pure out

/-- `write_result_to_file`. -/
def writeResultToFileRead (blocks : List (List Int)) (array : List (Option Nat)) (sizes : List Int)
    (size : Int) : Reading (List Int) := do
  let n ← callocLength size
  let min ← cellRead blocks array 0 0
  writeLoopRead blocks array sizes n ((sizes.map Int.toNat).sum + 1) size (List.replicate n 0) min []

section Results

variable {blocks : List (List Int)} {array : List (Option Nat)} {sizes iters : List Int}

theorem cellRead_result (i : Nat) (j : Int) :
    (cellRead blocks array i j).result = cell blocks array i j := by
  rw [cellRead, result_bind]
  rfl

theorem currentRead_result (i : Nat) :
    (currentRead blocks array iters i).result = current blocks array iters i := by
  simp only [currentRead, current, result_bind, result_lift, cellRead_result]

theorem takeAvailableRead_result (n : Nat) (i : Nat) (min minIdx : Int) :
    (takeAvailableRead blocks array sizes iters n i min minIdx).result
      = takeAvailable blocks array sizes iters n i min minIdx := by
  induction n generalizing i min minIdx with
  | zero => rfl
  | succ n ih =>
      rw [takeAvailableRead, takeAvailable, result_bind, result_lift]
      congr 1
      funext b
      cases b with
      | false => exact ih (i + 1) min minIdx
      | true =>
          simp only [if_true, result_bind, currentRead_result, ih]

theorem takeMinRead_result (n : Nat) (i : Nat) (min minIdx : Int) :
    (takeMinRead blocks array sizes iters n i min minIdx).result
      = takeMin blocks array sizes iters n i min minIdx := by
  induction n generalizing i min minIdx with
  | zero => rfl
  | succ n ih =>
      rw [takeMinRead, takeMin, result_bind, result_lift]
      congr 1
      funext b
      cases b with
      | false => exact ih (i + 1) min minIdx
      | true =>
          simp only [if_true, result_bind, currentRead_result]
          congr 1
          funext v
          split
          · exact ih (i + 1) v i
          · exact ih (i + 1) min minIdx

theorem writeLoopRead_result (size fuel : Nat) (zeros : Int) (iters : List Int) (min : Int)
    (out : List Int) :
    (writeLoopRead blocks array sizes size fuel zeros iters min out).result
      = writeLoop blocks array sizes size fuel zeros iters min out := by
  induction fuel generalizing zeros iters min out with
  | zero => rfl
  | succ fuel ih =>
      rw [writeLoopRead, writeLoop]
      split
      · rw [result_bind, takeAvailableRead_result]
        congr 1
        funext r
        obtain ⟨m, k⟩ := r
        by_cases hk : k = -1
        · simp only [hk, if_true]
          rfl
        · simp only [hk, if_false, result_bind, takeMinRead_result, result_lift, ih]
      · rfl

/-- **The record leaves `write_result_to_file` as it is.** -/
theorem writeResultToFileRead_result (size : Int) :
    (writeResultToFileRead blocks array sizes size).result
      = writeResultToFile blocks array sizes size := by
  simp only [writeResultToFileRead, writeResultToFile, result_bind, result_lift, cellRead_result,
    writeLoopRead_result]

end Results

/-! ## The reads are in range -/

/-- The element `array[i][j]` is one of row `i` of `size` rows, whose lengths are `sizes`. -/
def InRows (sizes : List Int) (size : Int) (r : Nat × Int) : Prop :=
  (r.1 : Int) < size ∧ 0 ≤ r.2 ∧ ∃ n, sizes[r.1]? = some n ∧ r.2 < n

section Reads

variable {blocks : List (List Int)} {array : List (Option Nat)} {sizes iters : List Int} {size : Nat}

theorem available_true {i : Nat} (h : available sizes iters i = .ok true) :
    ∃ it n, iters[i]? = some it ∧ sizes[i]? = some n ∧ it < n := by
  obtain ⟨it, hit, h⟩ := bind_eq_pure.1 h
  obtain ⟨n, hn, h⟩ := bind_eq_pure.1 h
  exact ⟨it, n, load_eq_pure hit, load_eq_pure hn, of_decide_eq_true ((pure_inj _ _).1 h)⟩

/-- A row is read only where its iterator is below its length. -/
theorem currentRead_keeps (hiters : ∀ x ∈ iters, 0 ≤ x) {i : Nat} (hi : i < size)
    (havail : available sizes iters i = .ok true) :
    Keeps (InRows sizes size) (fun _ => True) (currentRead blocks array iters i) := by
  obtain ⟨it, n, hit, hn, hlt⟩ := available_true havail
  refine Keeps.bind (P := fun x => x = it) (Keeps.lift fun x hx => ?_) ?_
  · exact Option.some.inj ((load_eq_pure hx).symm.trans hit)
  · rintro x rfl
    have hread : InRows sizes size (i, x) :=
      ⟨Int.ofNat_lt.2 hi, hiters x (List.mem_of_getElem? hit), n, hn, hlt⟩
    exact Keeps.bind (Keeps.record hread) fun _ _ => Keeps.lift fun _ _ => trivial

theorem takeAvailableRead_keeps (hiters : ∀ x ∈ iters, 0 ≤ x) (n : Nat) :
    ∀ (i : Nat) (min minIdx : Int), i + n = size →
    Keeps (InRows sizes size) (fun _ => True)
      (takeAvailableRead blocks array sizes iters n i min minIdx) := by
  induction n with
  | zero => exact fun i min minIdx _ => Keeps.pure trivial
  | succ n ih =>
      intro i min minIdx hlen
      refine Keeps.bind (P := fun b => available sizes iters i = .ok b)
        (Keeps.lift fun b hb => hb) fun b hb => ?_
      cases b with
      | false => exact ih (i + 1) min minIdx (by omega)
      | true =>
          refine Keeps.bind (currentRead_keeps hiters (by omega) hb) fun v _ => ?_
          exact ih (i + 1) v i (by omega)

theorem takeMinRead_keeps (hiters : ∀ x ∈ iters, 0 ≤ x) (n : Nat) :
    ∀ (i : Nat) (min minIdx : Int), i + n = size →
    Keeps (InRows sizes size) (fun _ => True)
      (takeMinRead blocks array sizes iters n i min minIdx) := by
  induction n with
  | zero => exact fun i min minIdx _ => Keeps.pure trivial
  | succ n ih =>
      intro i min minIdx hlen
      refine Keeps.bind (P := fun b => available sizes iters i = .ok b)
        (Keeps.lift fun b hb => hb) fun b hb => ?_
      cases b with
      | false => exact ih (i + 1) min minIdx (by omega)
      | true =>
          refine Keeps.bind (currentRead_keeps hiters (by omega) hb) fun v _ => ?_
          split
          · exact ih (i + 1) v i (by omega)
          · exact ih (i + 1) min minIdx (by omega)

/-- Every iteration of the loop keeps the iterators nonnegative. -/
theorem writeLoopRead_keeps (fuel : Nat) :
    ∀ (zeros : Int) (iters : List Int) (min : Int) (out : List Int), (∀ x ∈ iters, 0 ≤ x) →
    Keeps (InRows sizes size) (fun _ => True)
      (writeLoopRead blocks array sizes size fuel zeros iters min out) := by
  induction fuel with
  | zero => exact fun zeros iters min out _ => Keeps.lift fun _ _ => trivial
  | succ fuel ih =>
      intro zeros iters min out hiters
      rw [writeLoopRead]
      split
      · refine Keeps.bind (takeAvailableRead_keeps hiters size 0 min (-1) (Nat.zero_add _))
          fun r _ => ?_
        obtain ⟨m, k⟩ := r
        by_cases hk : k = -1
        · simp only [hk, if_true]
          exact Keeps.pure trivial
        · simp only [hk, if_false]
          refine Keeps.bind (takeMinRead_keeps hiters size 0 m k (Nat.zero_add _)) fun r _ => ?_
          refine Keeps.bind (P := fun it => it ∈ iters) (Keeps.lift fun it hit => ?_)
            fun it hit => ?_
          · exact load_mem hit
          refine Keeps.bind (P := fun x => x = it + 1)
            (Keeps.lift fun x hx => (int32_eq_pure hx).1) ?_
          rintro _ rfl
          refine Keeps.bind (P := fun its => ∀ x ∈ its, 0 ≤ x) (Keeps.lift fun its hits => ?_)
            fun its hits => ?_
          · intro x hx
            rcases store_mem hits hx with rfl | hx
            · have hpos := hiters it hit
              omega
            · exact hiters x hx
          exact Keeps.bind (P := fun _ => True) (Keeps.lift fun _ _ => trivial)
            fun sz _ => ih _ its _ _ hits
      · exact Keeps.pure trivial

/-- **When all reads are in range**: exactly when there is a row, and the first one is not empty. -/
theorem writeResultToFileRead_inRows_iff (blocks : List (List Int)) (array : List (Option Nat))
    (sizes : List Int) (size : Nat) :
    (∀ r ∈ (writeResultToFileRead blocks array sizes size).log, InRows sizes size r) ↔
      0 < size ∧ ∃ n, sizes[0]? = some n ∧ 0 < n := by
  have hfirst : ((0, 0) : Nat × Int) ∈ (writeResultToFileRead blocks array sizes size).log := by
    have hcalloc : callocLength size = .ok size := callocLength_run size
    rw [writeResultToFileRead, hcalloc, lift_ok_bind]
    exact mem_log_bind (mem_log_bind (List.mem_singleton.2 rfl))
  constructor
  · intro h
    obtain ⟨hlt, -, n, hn, hpos⟩ := h _ hfirst
    exact ⟨Int.ofNat_lt.1 hlt, n, hn, hpos⟩
  · rintro ⟨hsize, n, hn, hpos⟩
    have hread : InRows sizes size (0, 0) := ⟨Int.ofNat_lt.2 hsize, Int.le_refl 0, n, hn, hpos⟩
    have hkeeps : Keeps (InRows sizes size) (fun _ => True)
        (writeResultToFileRead blocks array sizes size) := by
      have hcalloc : callocLength size = .ok size := callocLength_run size
      rw [writeResultToFileRead, hcalloc, lift_ok_bind]
      refine Keeps.bind (P := fun _ => True) ?_ fun min _ => ?_
      · exact Keeps.bind (Keeps.record hread) fun _ _ => Keeps.lift fun _ _ => trivial
      · refine writeLoopRead_keeps _ _ _ min [] fun x hx => ?_
        rw [List.eq_of_mem_replicate hx]
    exact hkeeps.log

end Reads

end SysProg.MergeSort
