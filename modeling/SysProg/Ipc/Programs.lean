import SysProg.Ipc.SharedMem
import SysProg.Ipc.Pipe

set_option autoImplicit false

/-! # The parallel sorts agree with the simple one (`lecture_examples/7_ipc`)

The processes of `2_parallel_sort.c` and `3_mem_sort.c` run in any order. Both programs come to their
end, and with the `total_array` that `1_simple_sort.c` has. -/

namespace SysProg.Ipc

open MergeSort Interleaving Collect

/-! ## `1_simple_sort.c` -/

theorem grow_room (size capacity : Int) (hroom : size ≤ capacity) (hpos : 0 < size)
    (hsmall : size < 2 ^ 30) :
    ∃ capacity', grow size capacity = pure capacity' ∧ size < capacity' := by
  unfold grow
  split
  · next heq => exact ⟨capacity * 2, int32_of_range (by omega) (by omega), by omega⟩
  · exact ⟨capacity, rfl, by omega⟩

theorem sorterLoop_text {text : List CChar} {vs : List Int} (h : Scannable text vs)
    (array : List Int) (fuel : Nat) (hfuel : vs.length < fuel) (capacity : Int)
    (hroom : (array.length : Int) < capacity) (hsmall : array.length + vs.length < 2 ^ 30) :
    sorterLoop fuel text array capacity = pure (array ++ vs) := by
  induction h generalizing array fuel capacity with
  | nil hws =>
      obtain ⟨fuel, rfl⟩ := Nat.exists_eq_add_of_lt hfuel
      simp [sorterLoop, not_le.2 hroom, fscanf_end hws]
  | @cons ws num rest v vs hws hnum hlo hhi hsep hrest ih =>
      obtain ⟨fuel, rfl⟩ : ∃ m, fuel = m + 1 := ⟨fuel - 1, by omega⟩
      rw [List.length_cons] at hfuel hsmall
      have hlen : ((array ++ [v]).length : Int) = array.length + 1 := by simp
      obtain ⟨capacity', hgrow, hroom'⟩ := grow_room ((array ++ [v]).length : Int) capacity
        (by omega) (by omega) (by omega)
      have hrec := ih (array ++ [v]) fuel (by omega) capacity' hroom' (by omega)
      rw [sorterLoop, if_neg (not_le.2 hroom), fscanf_numeral hws hnum hlo hhi hsep, pure_bind]
      simp only
      rw [int32_of_range (by omega) (by omega), pure_bind, hgrow, pure_bind, hrec, List.append_assoc,
        List.singleton_append]

/-- The numbers of a file, such that `cmp` does not overflow. -/
def Sortable (vs : List Int) : Prop := ∀ a ∈ vs, ∀ b ∈ vs, -2 ^ 31 ≤ a - b ∧ a - b < 2 ^ 31

theorem qsort_run {vs : List Int} (h : Sortable vs) : qsort cmp vs = pure (vs.mergeSort (· ≤ ·)) := by
  have hcmp : ∀ a ∈ vs, ∀ b ∈ vs, cmp a b = .ok (a - b) := fun a ha b hb =>
    int32_of_range (h a ha b hb).1 (h a ha b hb).2
  have hall : (vs.all fun a => vs.all fun b => (cmp a b).isOk) = true := by
    simp only [List.all_eq_true]
    intro a ha b hb
    rw [hcmp a ha b hb]
    rfl
  have hle : ∀ a ∈ vs, ∀ b ∈ vs, inOrder cmp a b = decide (id a ≤ id b) := by
    intro a ha b hb
    rw [inOrder, hcmp a ha b hb]
    simp only [id, decide_eq_decide]
    omega
  have hsort := List.map_mergeSort (s := fun a b => decide (a ≤ b)) (f := id) hle
  rw [List.map_id, List.map_id] at hsort
  rw [qsort, if_pos hall, hsort]

/-- What `fopen` finds under `name`: a text of numbers. -/
def Opens (env : Env) (name : List CChar) (vs : List Int) : Prop :=
  ∃ text, env.content name = some text ∧ IntText text vs ∧ vs.length < 2 ^ 30 ∧ Sortable vs

theorem sorter_text {env : Env} {name : List CChar} {vs : List Int} (h : Opens env name vs) :
    sorter env name = pure (vs.mergeSort (· ≤ ·)) := by
  obtain ⟨text, hopen, htext, hsmall, hsort⟩ := h
  have hfuel := htext.scannable.length_le
  have hloop := sorterLoop_text htext.scannable [] (text.length + 1) (by omega) 1024 (by simp)
    (by simpa using hsmall)
  simp only [sorter, hopen]
  rw [hloop, List.nil_append, pure_bind, qsort_run hsort]

theorem sorters_text {env : Env} {names : List (List CChar)} {vals : List (List Int)}
    (h : List.Forall₂ (Opens env) names vals) :
    names.mapM (sorter env) = pure (vals.map (·.mergeSort (· ≤ ·))) := by
  induction h with
  | nil => rfl
  | cons hfile _ ih =>
      rw [List.mapM_cons, sorter_text hfile, pure_bind, ih]
      rfl

theorem totalSize_run (arrays : List (List Int)) (total : Nat)
    (h : total + arrays.flatten.length < 2 ^ 31) :
    arrays.foldlM (fun total (array : List Int) => int32 (total + array.length)) (total : Int)
      = pure ((total + arrays.flatten.length : Nat) : Int) := by
  induction arrays generalizing total with
  | nil => rfl
  | cons array arrays ih =>
      rw [List.flatten_cons, List.length_append] at h ⊢
      have hnext := ih (total + array.length) (by omega)
      rw [List.foldlM_cons, int32_of_range (by omega) (by omega), pure_bind, ← Nat.cast_add, hnext,
        Nat.add_assoc]

/-- The sum of the sizes fits `int`. -/
theorem totalArray_run {arrays : List (List Int)} (h : arrays.flatten.length < 2 ^ 31) :
    totalArray arrays = pure arrays.flatten := by
  have hsize := totalSize_run arrays 0 (by omega)
  rw [totalArray]
  rw [show ((0 : Nat) : Int) = 0 from rfl] at hsize
  rw [hsize]
  rfl

/-- **What `1_simple_sort.c` computes**: the numbers of each file in ascending order, the files behind
    one another. -/
theorem simpleSort_text (env : Env) (names : List (List CChar)) (vals : List (List Int))
    (h : List.Forall₂ (Opens env) names vals) (hsize : vals.flatten.length < 2 ^ 31) :
    simpleSort env names = pure (vals.map (·.mergeSort (· ≤ ·))).flatten := by
  have hlen : (vals.map (·.mergeSort (· ≤ ·))).flatten.length = vals.flatten.length := by
    simp [List.length_flatten, Function.comp_def]
  rw [simpleSort, sorters_text h, pure_bind, totalArray_run (by omega)]

/-- Every file holds the text `2 1`. -/
def sameFiles : Env :=
  { content := fun _ => some (ascii ['2', ' ', '1']), junk := fun _ => 0, clock := fun _ => 0 }

theorem opens_sameFiles (name : List CChar) : Opens sameFiles name [2, 1] := by
  have htwo : Numeral [50] (decimal [50]) := .plain (by decide) (by decide)
  have hone : Numeral [49] (decimal [49]) := .plain (by decide) (by decide)
  have hlast : IntText ([32] ++ [49] ++ []) [decimal [49]] :=
    .cons (by decide) hone (by decide) (by decide) (by simp) (.nil (by simp))
  have htext : IntText ([] ++ [50] ++ ([32] ++ [49] ++ [])) [decimal [50], decimal [49]] :=
    .cons (by simp) htwo (by decide) (by decide) (by rintro _ ⟨⟩; rfl) hlast
  exact ⟨_, rfl, htext, by decide, by unfold Sortable; decide⟩

theorem mergeSort_two : [(2 : Int), 1].mergeSort (· ≤ ·) = [1, 2] := by
  simp [List.mergeSort, List.MergeSort.Internal.splitInTwo]

theorem sorters_sameFiles (a b : List CChar) :
    [a, b].mapM (sorter sameFiles) = pure [[1, 2], [1, 2]] := by
  rw [sorters_text (.cons (opens_sameFiles a) (.cons (opens_sameFiles b) .nil)), List.map_cons,
    List.map_singleton, mergeSort_two]

/-- Two files with the numbers 2 and 1. -/
example :
    simpleSort sameFiles [ascii ['a'], ascii ['b']]
      = pure (([[2, 1], [2, 1]] : List (List Int)).map (·.mergeSort (· ≤ ·))).flatten :=
  simpleSort_text _ _ _ (.cons (opens_sameFiles _) (.cons (opens_sameFiles _) .nil)) (by decide)

/-! ## The parallel programs -/

/-- The workers of `3_mem_sort.c`, each with a region, in front of their transfers. -/
def memStart (arrays : List (List Int)) : Sys arrays.length Region (List Int) :=
  { links := fun j => .start ask (messages (arrays.get j)), values := [] }

/-- The workers of `2_parallel_sort.c`, each with a pipe, in front of their writes. -/
def pipeStart (arrays : List (List Int)) : Sys arrays.length Pipe (List Int) :=
  { links := fun j => .start ask (messages (arrays.get j)), values := [] }

/-- The runs of a program with a link for each file come to their end, and have then computed
    `total`. -/
structure Computes {n : Nat} {S L : Type} (link : Link S L (List Int)) (s₀ : Sys n S (List Int))
    (total : C (List Int)) : Prop where
  total : ∀ s, Reaches (step link) (fun _ _ => True) s₀ s → s.values.length = n →
    totalArray s.values = total
  /-- No process is stuck: from every state the end can be reached. -/
  ends : ∀ s, Reaches (step link) (fun _ _ => True) s₀ s →
    ∃ s', Reaches (step link) (fun _ _ => True) s s' ∧ s'.values.length = n
  /-- Nothing goes on forever: all but a bounded number of steps wait for another process. -/
  bound : ∃ N, ∀ k s, Works (step link) s₀ k s → k ≤ N

section Programs

variable {env : Env} {names : List (List CChar)} {arrays : List (List Int)}

theorem computes_of_collects {n : Nat} {S L : Type} {link : Link S L (List Int)}
    {s₀ : Sys n S (List Int)} (h : Collects link s₀ arrays)
    (hsort : names.mapM (sorter env) = pure arrays) : Computes link s₀ (simpleSort env names) where
  total := by
    intro s hs hend
    rw [h.values s hs hend, simpleSort, hsort, pure_bind]
  ends := h.ends
  bound := h.bound

/-- The numbers of the sorters fit `int`. -/
theorem sorters_range (hsort : names.mapM (sorter env) = pure arrays) :
    ∀ vs ∈ arrays, ∀ v ∈ vs, -2 ^ 31 ≤ v ∧ v < 2 ^ 31 := by
  induction names generalizing arrays with
  | nil =>
      obtain rfl := (pure_inj _ _).1 hsort
      simp
  | cons name names ih =>
      rw [List.mapM_cons] at hsort
      obtain ⟨vs, hvs, hsort⟩ := bind_eq_pure.1 hsort
      obtain ⟨rest, hrest, hsort⟩ := bind_eq_pure.1 hsort
      obtain rfl := (pure_inj _ _).1 hsort
      exact List.forall_mem_cons.2 ⟨sorter_range hvs, ih hrest⟩

end Programs

/-! ### Shared memory -/

section Regions

variable {env : Env} {names : List (List CChar)} {arrays : List (List Int)}

theorem region_delivers (hsort : names.mapM (sorter env) = pure arrays)
    (hsize : ∀ vs ∈ arrays, 4 * vs.length < 2 ^ 31) (j : Fin arrays.length) :
    memLink.Delivers (Phase (messages (arrays.get j))) (arrays.get j) :=
  memLink_delivers (hsize _ (List.get_mem ..)) (sorters_range hsort _ (List.get_mem ..))

theorem region_start (hsize : ∀ vs ∈ arrays, 4 * vs.length < 2 ^ 31) (j : Fin arrays.length) :
    Phase (messages (arrays.get j)) (cost (messages (arrays.get j)))
      (.start ask (messages (arrays.get j))) := by
  rw [Region.start, call_resume (asks_messages (hsize _ (List.get_mem ..))) (List.nil_append _)]
  exact .empty _ [] [] _ rfl

end Regions

/-- **`3_mem_sort.c` computes what `1_simple_sort.c` does**, in whatever order the workers and `main`
    access the shared regions. -/
theorem memSort_computes (env : Env) (names : List (List CChar)) (arrays : List (List Int))
    (hsort : names.mapM (sorter env) = pure arrays) (hsize : ∀ vs ∈ arrays, 4 * vs.length < 2 ^ 31) :
    Computes memLink (memStart arrays) (simpleSort env names) := by
  have hcollects := collects (region_delivers hsort hsize) (region_start hsize)
  rw [List.ofFn_get] at hcollects
  exact computes_of_collects hcollects hsort

/-- Two workers. -/
theorem memSort_computes_same : Computes memLink (memStart [[1, 2], [1, 2]])
    (simpleSort sameFiles [ascii ['a'], ascii ['b']]) :=
  memSort_computes _ _ _ (sorters_sameFiles _ _) (by simp)

/-- **The flags of a region exclude**: a worker and `main` never access the bytes of its region
    together, in any interleaving of all the workers and `main`. -/
theorem memSort_excludes (env : Env) (names : List (List CChar)) (arrays : List (List Int))
    (hsort : names.mapM (sorter env) = pure arrays) (hsize : ∀ vs ∈ arrays, 4 * vs.length < 2 ^ 31)
    (s : Sys arrays.length Region (List Int))
    (h : Reaches (step memLink) (fun _ _ => True) (memStart arrays) s) (j : Fin arrays.length) :
    ¬ ((s.links j).writer.pc.InRegion ∧ (s.links j).reader.pc.InRegion) := by
  have hstart := inv_start memLink arrays.get (region_start hsize)
  obtain ⟨r, hinv⟩ := (graded (region_delivers hsort hsize)).reaches hstart h
  obtain ⟨rk, hrk, -⟩ := hinv.links
  exact (hrk j).excludes

/-- Both workers are in their regions, and `main` is in none. -/
theorem memSort_excludes_same :
    ∃ s, after (step memLink) [.produce 0 (), .produce 1 ()] (memStart [[1, 2], [1, 2]]) = some s ∧
      ∀ j : Fin 2, ¬ ((s.links j).writer.pc.InRegion ∧ (s.links j).reader.pc.InRegion) :=
  ⟨_, rfl, memSort_excludes _ _ _ (sorters_sameFiles (ascii ['a']) (ascii ['b'])) (by simp) _
    (reaches_of_after [.produce 0 (), .produce 1 ()] .refl rfl)⟩

/-! ### Pipes -/

/-- **`2_parallel_sort.c` computes what `1_simple_sort.c` does**, with pipes of any size and however the
    kernel cuts the reads and moves the bytes of a write, when each array is written in one call. -/
theorem parallelSort_computes (env : Env) (names : List (List CChar)) (arrays : List (List Int))
    (hsort : names.mapM (sorter env) = pure arrays) (hsize : ∀ vs ∈ arrays, 4 * vs.length ≤ maxRw)
    (room : Nat) (hroom : 0 < room) :
    Computes (pipeLink room) (pipeStart arrays) (simpleSort env names) := by
  have hrange := sorters_range hsort
  have hlimit : maxRw < 2 ^ 31 := by decide
  have hsmall : ∀ j : Fin arrays.length, 4 * (arrays.get j).length < 2 ^ 31 := fun j =>
    Nat.lt_of_le_of_lt (hsize _ (List.get_mem ..)) hlimit
  have hd : ∀ j : Fin arrays.length,
      (pipeLink room).Delivers (Piped (messages (arrays.get j))) (arrays.get j) := fun j =>
    pipeLink_delivers hroom (hsmall j) (hrange _ (List.get_mem ..))
  have hstart : ∀ j : Fin arrays.length, Piped (messages (arrays.get j))
      (moves (messages (arrays.get j)) + (0 + moves (messages (arrays.get j))) + 1)
      (.start ask (messages (arrays.get j))) := by
    intro j
    rw [Pipe.start, pipeCall_resume (asks_messages (hsmall j)) (List.nil_append _)]
    exact .mk _ [] [] [] [] _ false rfl rfl (messages_fit (hsize _ (List.get_mem ..))) (by simp)
  have hcollects := collects hd hstart
  rw [List.ofFn_get] at hcollects
  exact computes_of_collects hcollects hsort

/-- Two workers, and pipes that hold one byte. -/
theorem parallelSort_computes_same : Computes (pipeLink 1) (pipeStart [[1, 2], [1, 2]])
    (simpleSort sameFiles [ascii ['a'], ascii ['b']]) :=
  parallelSort_computes _ _ _ (sorters_sameFiles _ _) (by decide) 1 (by decide)

end SysProg.Ipc
