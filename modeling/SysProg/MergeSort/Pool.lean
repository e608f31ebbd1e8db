import SysProg.MergeSort.Intermediate

set_option autoImplicit false

/-! # The invariant of the pool

Coroutines that run `intermediate` share the tables of `main`. Ghost state says who has claimed which
file and which array it was read into; everything the coroutines write is theirs by it. -/

namespace SysProg.MergeSort

open Libcoro Runs

/-- The shared memory, and the coroutines by number: their stacks, or nothing once they have
    returned. -/
structure Pool where
  mem : Mem
  threads : List (Option Local)

/-- What the library tells the coroutine `j`. -/
structure Shows (v : View) (j : Nat) : Prop where
  this : v.coroThis = some (.node j)
  count : ∃ n, v.coroSwitchCount (.node j) = pure n

/-- What the call of `coro_yield` or the end of the function leaves of a coroutine. -/
def outcome : Option Local → BodyCall Local
  | none => .ret 0
  | some l => .call (.yield l)

/-- Any coroutine that has not returned runs to its next `coro_yield` or to its end. -/
inductive PoolStep (env : Env) : Pool → Pool → Prop
  | run {p : Pool} {j : Nat} {l : Local} {v : View} {t : Option Local} {mem : Mem}
      (hl : p.threads[j]? = some (some l)) (hv : Shows v j)
      (hrun : intermediate env v l p.mem = pure (outcome t, mem)) :
      PoolStep env p ⟨mem, p.threads.set j t⟩

/-! ## What a coroutine knows about its array -/

/-- The file a coroutine is at. -/
def Local.file? (l : Local) : Option Nat :=
  match l.resume with
  | .start => none
  | .afterRead i _ => some i
  | .afterMerge f _ => some f.file
  | .afterPass f => some f.file

/-- The local variables of `me_mergesort` in the coroutine `j`, in a pass over blocks of `w` elements
    of the array `a` at `b`. -/
structure SortFrame.Rep (f : SortFrame) (j b : Nat) (a : List Int) (w : Nat) : Prop where
  array : f.array = some b
  rhs : f.rhs = a.length
  this : f.this = some (.node j)
  currSize : f.currSize = w
  pow : ∃ t, w = 2 ^ t
  le : w ≤ a.length

/-- How far the coroutine `j` has sorted the array `a` at `b`. -/
def Resume.Sorts (j b : Nat) (a : List Int) : Resume → Prop
  | .start => True
  | .afterRead _ n => n = a.length
  | .afterMerge f leftStart => ∃ w r, f.Rep j b a w ∧ leftStart = (2 * (r * w) : Nat) ∧
      2 * (r * w) + 1 < a.length ∧ Pass a w (r + 1)
  | .afterPass f => ∃ w, f.Rep j b a w ∧ Blocks a (2 * w)

/-! ## The invariant -/

/-- Who has claimed a file, and the array it was read into. -/
abbrev Owners := Nat → Option (Nat × Nat)

/-- The coroutines that have claimed the file `i`. -/
def claimants (writes : List (Nat × Location)) (i : Nat) : List Nat :=
  writes.filterMap fun w => if w.2 = .processed i then some w.1 else none

/-- Whether a location belongs to the coroutine `j`. -/
def Owns (own : Owners) (j : Nat) : Location → Prop
  | .processed i => ∃ b, own i = some (j, b)
  | .numbers i => ∃ b, own i = some (j, b)
  | .arraysLength i => ∃ b, own i = some (j, b)
  | .ints b => ∃ i, own i = some (j, b)

/-- The invariant, where the files hold the integers `vals`. -/
structure PoolInv (env : Env) (vals : List (List Int)) (own : Owners) (p : Pool) : Prop where
  small : ∀ (i : Nat) vs, vals[i]? = some vs → vs.length < 2 ^ 30
  files_length : p.mem.files.length = vals.length
  file : ∀ (i : Nat) vs, vals[i]? = some vs → ∃ f, p.mem.files[i]? = some f ∧ f.index = i ∧
    f.processed = (own i).isSome ∧ readFile env f.name = pure (vs, (vs.length : Int))
  numbers_length : p.mem.numbers.length = vals.length
  numbers : ∀ i, i < vals.length → p.mem.numbers[i]? = some ((own i).map Prod.snd)
  lengths : ∀ (i : Nat) vs, vals[i]? = some vs → ∃ n, p.mem.arraysLength[i]? = some n ∧
    ((own i).isSome → n = vs.length)
  args : ∀ j, j < p.threads.length → ∃ r, p.mem.args[j]? = some r ∧ r.filesLength = vals.length
  claims : ∀ i, claimants p.mem.writes i = ((own i).map Prod.fst).toList
  /-- An array holds the integers of its file; unless its owner is still at work, it is sorted. -/
  owned : ∀ i j b, own i = some (j, b) → ∃ vs a, vals[i]? = some vs ∧ p.mem.blocks[b]? = some a ∧
    a.Perm vs ∧ ((∃ l, p.threads[j]? = some (some l) ∧ l.file? = some i) ∨ a.Pairwise (· ≤ ·))
  inj : ∀ i i' j j' b, own i = some (j, b) → own i' = some (j', b) → i = i'
  thread : ∀ (j : Nat) l, p.threads[j]? = some (some l) → l.args = j ∧ ∀ i, l.file? = some i →
    ∃ b a, own i = some (j, b) ∧ p.mem.blocks[b]? = some a ∧ l.resume.Sorts j b a
  log : ∀ w ∈ p.mem.writes, Owns own w.1 w.2
  /-- A coroutine returns only when all files are claimed. -/
  finished : ∀ j : Nat, p.threads[j]? = some none → ∀ i, i < vals.length → (own i).isSome = true

namespace PoolInv

variable {env : Env} {vals : List (List Int)} {own : Owners} {mem : Mem}
  {ths : List (Option Local)} {j i b : Nat}

theorem lt_of_get {α : Type} {xs : List α} {n : Nat} {x : α} (h : xs[n]? = some x) :
    n < xs.length := (List.getElem?_eq_some_iff.1 h).1

/-- What is read from a list in which one element has been replaced. -/
theorem get_set {α : Type} {xs : List α} {n k : Nat} {x y : α} (h : (xs.set n x)[k]? = some y) :
    (n = k ∧ x = y) ∨ (n ≠ k ∧ xs[k]? = some y) := by
  by_cases hnk : n = k
  · subst hnk
    have hn := lt_of_get h
    rw [List.length_set] at hn
    rw [List.getElem?_set_self hn] at h
    exact Or.inl ⟨rfl, Option.some.inj h⟩
  · rw [List.getElem?_set_ne hnk] at h
    exact Or.inr ⟨hnk, h⟩

theorem owned_lt (h : PoolInv env vals own ⟨mem, ths⟩) (hown : own i = some (j, b)) :
    i < vals.length ∧ b < mem.blocks.length := by
  obtain ⟨vs, a, hvs, ha, -⟩ := h.owned i j b hown
  exact ⟨lt_of_get hvs, lt_of_get ha⟩

end PoolInv

/-! ## Clocks and counts -/

/-- Two memories that differ in times and counts only. -/
def Mem.Agree (mem mem' : Mem) : Prop :=
  ∃ args ticks, mem' = { mem with args := args, ticks := ticks } ∧
    args.length = mem.args.length ∧
    ∀ (j : Nat) r, mem.args[j]? = some r → ∃ r', args[j]? = some r' ∧ r'.filesLength = r.filesLength

theorem Mem.Agree.trans {mem mem' mem'' : Mem} (h : mem.Agree mem') (h' : mem'.Agree mem'') :
    mem.Agree mem'' := by
  obtain ⟨args, ticks, rfl, hlen, hargs⟩ := h
  obtain ⟨args', ticks', rfl, hlen', hargs'⟩ := h'
  refine ⟨args', ticks', rfl, hlen'.trans hlen, ?_⟩
  intro j r hr
  obtain ⟨r', hr', heq⟩ := hargs j r hr
  obtain ⟨r'', hr'', heq'⟩ := hargs' j r' hr'
  exact ⟨r'', hr'', heq'.trans heq⟩

/-- Changing times and counts of one coroutine. -/
theorem Mem.agree_set {mem : Mem} {me : Nat} {r : CoroArgs} (hr : mem.args[me]? = some r)
    (r' : CoroArgs) (hlen : r'.filesLength = r.filesLength) (n : Nat) :
    mem.Agree { mem with args := mem.args.set me r', ticks := n } := by
  refine ⟨_, n, rfl, List.length_set, ?_⟩
  intro j q hq
  by_cases hj : me = j
  · subst hj
    rw [hr] at hq
    obtain rfl := Option.some.inj hq
    exact ⟨r', List.getElem?_set_self (PoolInv.lt_of_get hr), hlen⟩
  · exact ⟨q, (List.getElem?_set_ne hj).trans hq, rfl⟩

section Clocks

variable {me : Nat} {mem : Mem} {r : CoroArgs}

theorem startClock_run (env : Env) (hr : mem.args[me]? = some r) :
    ∃ mem', startClock env me mem = pure mem' ∧ mem.Agree mem' := by
  refine ⟨_, ?_, Mem.agree_set hr { r with tInvoked := env.clock mem.ticks } rfl (mem.ticks + 1)⟩
  rw [startClock, load_run hr, pure_bind, store_run (PoolInv.lt_of_get hr), pure_bind]

theorem stopClock_run (env : Env) (hr : mem.args[me]? = some r) :
    ∃ mem', stopClock env me mem = pure mem' ∧ mem.Agree mem' := by
  refine ⟨_, ?_, Mem.agree_set hr
    { r with tSummary := r.tSummary + (env.clock mem.ticks - r.tInvoked) } rfl
      (mem.ticks + 1)⟩
  rw [stopClock, load_run hr, pure_bind, store_run (PoolInv.lt_of_get hr), pure_bind]

theorem setSwitchCount_run {v : View} {c : CoroPtr} {n : Int} (hv : v.coroSwitchCount c = pure n)
    (hr : mem.args[me]? = some r) :
    ∃ mem', setSwitchCount v (some c) me mem = pure mem' ∧ mem.Agree mem' := by
  refine ⟨_, ?_, Mem.agree_set hr { r with switchCount := n } rfl mem.ticks⟩
  rw [setSwitchCount, hv, pure_bind, load_run hr, pure_bind, store_run (PoolInv.lt_of_get hr),
    pure_bind]

end Clocks

/-! ## What keeps the invariant -/

/-- The memory after the coroutine `j` has claimed the file `i` and read its integers `vs`. -/
def claimed (j i : Nat) (f : CoroFile) (vs : List Int) (mem : Mem) : Mem :=
  { mem with
    files := mem.files.set i { f with processed := true }
    numbers := mem.numbers.set i (some mem.blocks.length)
    arraysLength := mem.arraysLength.set i vs.length
    blocks := mem.blocks ++ [vs]
    writes := mem.writes ++ [(j, .processed i)] ++ [(j, .ints mem.blocks.length),
      (j, .numbers i), (j, .arraysLength i)] }

theorem claimants_append (ws ws' : List (Nat × Location)) (i : Nat) :
    claimants (ws ++ ws') i = claimants ws i ++ claimants ws' i := List.filterMap_append

theorem claimants_ints {ws : List (Nat × Location)} {j b : Nat}
    (hws : ∀ w ∈ ws, w = (j, Location.ints b)) (i : Nat) : claimants ws i = [] := by
  refine List.filterMap_eq_nil_iff.2 fun w hw => ?_
  rw [hws w hw]
  rfl

namespace PoolInv

variable {env : Env} {vals : List (List Int)} {own : Owners} {mem mem' : Mem}
  {ths : List (Option Local)} {j i b : Nat} {l : Local} {a a' : List Int}

theorem own_unique (h : PoolInv env vals own ⟨mem, ths⟩) (hown : own i = some (j, b)) {i' j' : Nat}
    (hown' : own i' = some (j', b)) : i' = i ∧ j' = j := by
  have hi := h.inj i' i j' j b hown' hown
  subst hi
  rw [hown, Option.some.injEq, Prod.mk.injEq] at hown'
  exact ⟨rfl, hown'.1.symm⟩

/-- Times and counts do not matter. -/
theorem agree (h : PoolInv env vals own ⟨mem, ths⟩) (hm : mem.Agree mem') :
    PoolInv env vals own ⟨mem', ths⟩ := by
  obtain ⟨args, ticks, rfl, -, hargs⟩ := hm
  refine { h with args := ?_ }
  intro k hk
  obtain ⟨r, hr, hlen⟩ := h.args k hk
  obtain ⟨r', hr', hlen'⟩ := hargs k r hr
  exact ⟨r', hr', hlen'.trans hlen⟩

/-- One coroutine goes on, and there are still arguments for all of them. -/
theorem args_set (h : PoolInv env vals own ⟨mem, ths⟩) (t : Option Local) :
    ∀ k, k < (ths.set j t).length → ∃ r, mem.args[k]? = some r ∧ r.filesLength = vals.length := by
  intro k hk
  rw [List.length_set] at hk
  exact h.args k hk

/-- A coroutine that does not return leaves those that have returned as they are. -/
theorem finished_set (h : PoolInv env vals own ⟨mem, ths⟩) (l' : Local) :
    ∀ j' : Nat, (ths.set j (some l'))[j']? = some none →
      ∀ i, i < vals.length → (own i).isSome = true := by
  intro j' hj'
  rcases get_set hj' with ⟨-, hnone⟩ | ⟨-, hj'⟩
  · cases hnone
  · exact h.finished j' hj'

/-- Whoever is at another file than the coroutine that goes on stays there. -/
theorem working_set {t : Option Local} {i' j' : Nat} (hl : ths[j]? = some (some l))
    (hfile : l.file? ≠ some i') (h : ∃ l0, ths[j']? = some (some l0) ∧ l0.file? = some i') :
    ∃ l0, (ths.set j t)[j']? = some (some l0) ∧ l0.file? = some i' := by
  obtain ⟨l0, hl0, hfile0⟩ := h
  have hjj : j ≠ j' := by
    rintro rfl
    obtain rfl : l = l0 := Option.some.inj (Option.some.inj (hl.symm.trans hl0))
    exact hfile hfile0
  exact ⟨l0, (List.getElem?_set_ne hjj).trans hl0, hfile0⟩

/-- A coroutine goes on sorting its array. -/
theorem sortStep (h : PoolInv env vals own ⟨mem, ths⟩) (hl : ths[j]? = some (some l))
    (hfile : l.file? = some i) (hown : own i = some (j, b)) (ha : mem.blocks[b]? = some a)
    (hperm : a'.Perm a) (ws : List (Nat × Location)) (hws : ∀ w ∈ ws, w = (j, Location.ints b))
    (l' : Local) (hargs : l'.args = j) (hfile' : l'.file? = some i)
    (hsorts : l'.resume.Sorts j b a') :
    PoolInv env vals own ⟨{ mem with blocks := mem.blocks.set b a', writes := mem.writes ++ ws },
      ths.set j (some l')⟩ := by
  have hj := lt_of_get hl
  have hb := lt_of_get ha
  refine { h with args := h.args_set _, claims := ?claims, owned := ?owned, thread := ?thread,
                  log := ?log, finished := h.finished_set l' }
  case claims =>
    intro k
    rw [claimants_append, claimants_ints hws, List.append_nil]
    exact h.claims k
  case owned =>
    intro i' j' b' hown'
    obtain ⟨vs, a0, hvs, ha0, hperm0, hwork⟩ := h.owned i' j' b' hown'
    by_cases hbb : b = b'
    · subst hbb
      obtain ⟨rfl, rfl⟩ := h.own_unique hown hown'
      obtain rfl : a = a0 := Option.some.inj (ha.symm.trans ha0)
      exact ⟨vs, a', hvs, List.getElem?_set_self hb, hperm.trans hperm0,
        Or.inl ⟨l', List.getElem?_set_self hj, hfile'⟩⟩
    · refine ⟨vs, a0, hvs, (List.getElem?_set_ne hbb).trans ha0, hperm0,
        hwork.imp_left (working_set hl ?_)⟩
      rw [hfile]
      rintro ⟨⟩
      exact hbb (congrArg Prod.snd (Option.some.inj (hown.symm.trans hown')))
  case thread =>
    intro j' l0 hl0
    rcases get_set hl0 with ⟨rfl, heq⟩ | ⟨hjj, hl0⟩
    · obtain rfl := Option.some.inj heq
      refine ⟨hargs, fun i0 hi0 => ?_⟩
      obtain rfl : i = i0 := Option.some.inj (hfile'.symm.trans hi0)
      exact ⟨b, a', hown, List.getElem?_set_self hb, hsorts⟩
    · obtain ⟨hargs0, hfile0⟩ := h.thread j' l0 hl0
      refine ⟨hargs0, fun i0 hi0 => ?_⟩
      obtain ⟨b0, a0, hown0, ha0, hsorts0⟩ := hfile0 i0 hi0
      have hbb : b ≠ b0 := by
        rintro rfl
        exact hjj (h.own_unique hown hown0).2.symm
      exact ⟨b0, a0, hown0, (List.getElem?_set_ne hbb).trans ha0, hsorts0⟩
  case log =>
    intro w hw
    rcases List.mem_append.1 hw with hw | hw
    · exact h.log w hw
    · rw [hws w hw]
      exact ⟨i, hown⟩

/-- A coroutine goes on without a write. -/
theorem sortRest (h : PoolInv env vals own ⟨mem, ths⟩) (hl : ths[j]? = some (some l))
    (hfile : l.file? = some i) (hown : own i = some (j, b)) (ha : mem.blocks[b]? = some a)
    (l' : Local) (hargs : l'.args = j) (hfile' : l'.file? = some i)
    (hsorts : l'.resume.Sorts j b a) :
    PoolInv env vals own ⟨mem, ths.set j (some l')⟩ := by
  have hkeep := h.sortStep hl hfile hown ha (List.Perm.refl a) [] (List.forall_mem_nil _) l' hargs
    hfile' hsorts
  have hblocks : mem.blocks.set b a = mem.blocks := by
    obtain ⟨hb, rfl⟩ := List.getElem?_eq_some_iff.1 ha
    exact List.set_getElem_self hb
  rw [hblocks, List.append_nil] at hkeep
  exact hkeep

/-- A coroutine has sorted its array. -/
theorem release (h : PoolInv env vals own ⟨mem, ths⟩) (hl : ths[j]? = some (some l))
    (hfile : l.file? = some i) (hown : own i = some (j, b)) (ha : mem.blocks[b]? = some a)
    (hsorted : a.Pairwise (· ≤ ·)) :
    PoolInv env vals own ⟨mem, ths.set j (some ⟨j, .start⟩)⟩ := by
  refine { h with args := h.args_set _, owned := ?owned, thread := ?thread,
                  finished := h.finished_set _ }
  case owned =>
    intro i' j' b' hown'
    obtain ⟨vs, a0, hvs, ha0, hperm0, hwork⟩ := h.owned i' j' b' hown'
    refine ⟨vs, a0, hvs, ha0, hperm0, ?_⟩
    by_cases hi : i = i'
    · subst hi
      obtain rfl : b = b' := congrArg Prod.snd (Option.some.inj (hown.symm.trans hown'))
      obtain rfl : a = a0 := Option.some.inj (ha.symm.trans ha0)
      exact Or.inr hsorted
    · refine hwork.imp_left (working_set hl ?_)
      rw [hfile]
      exact fun heq => hi (Option.some.inj heq)
  case thread =>
    intro j' l0 hl0
    rcases get_set hl0 with ⟨rfl, heq⟩ | ⟨-, hl0⟩
    · obtain rfl := Option.some.inj heq
      exact ⟨rfl, fun i0 hi0 => by cases hi0⟩
    · exact h.thread j' l0 hl0

/-- A coroutine finds no file and returns. -/
theorem finish (h : PoolInv env vals own ⟨mem, ths⟩) (hl : ths[j]? = some (some l))
    (hfile : l.file? = none) (hall : ∀ i, i < vals.length → (own i).isSome = true) :
    PoolInv env vals own ⟨mem, ths.set j none⟩ := by
  refine { h with args := h.args_set _, owned := ?owned, thread := ?thread,
                  finished := fun _ _ => hall }
  case owned =>
    intro i' j' b' hown'
    obtain ⟨vs, a0, hvs, ha0, hperm0, hwork⟩ := h.owned i' j' b' hown'
    exact ⟨vs, a0, hvs, ha0, hperm0, hwork.imp_left (working_set hl (by simp [hfile]))⟩
  case thread =>
    intro j' l0 hl0
    rcases get_set hl0 with ⟨-, heq⟩ | ⟨-, hl0⟩
    · cases heq
    · exact h.thread j' l0 hl0

/-- What a coroutine owns it keeps when others claim more. -/
theorem owns_mono {own own' : Owners} (hle : ∀ k q, own k = some q → own' k = some q) {w : Nat}
    {loc : Location} (h : Owns own w loc) : Owns own' w loc := by
  cases loc with
  | processed k => exact h.imp fun _ hk => hle _ _ hk
  | numbers k => exact h.imp fun _ hk => hle _ _ hk
  | arraysLength k => exact h.imp fun _ hk => hle _ _ hk
  | ints b => exact h.imp fun _ hk => hle _ _ hk

/-- A file other than the one just claimed has the owner and the array it had. -/
theorem claim_old (h : PoolInv env vals own ⟨mem, ths⟩) {k j' b' : Nat} (hk : k ≠ i)
    (hown : Function.update own i (some (j, mem.blocks.length)) k = some (j', b')) :
    own k = some (j', b') ∧ b' < mem.blocks.length := by
  rw [Function.update_of_ne hk] at hown
  exact ⟨hown, (h.owned_lt hown).2⟩

theorem claim_mono {q : Nat × Nat} (hfree : own i = none) (k : Nat) (q' : Nat × Nat)
    (hk : own k = some q') : Function.update own i (some q) k = some q' := by
  have hki : k ≠ i := by
    rintro rfl
    cases hfree.symm.trans hk
  rw [Function.update_of_ne hki, hk]

/-- The new array is no other file's. -/
theorem claim_inj (h : PoolInv env vals own ⟨mem, ths⟩) {k k' j' j'' b' : Nat}
    (hk : Function.update own i (some (j, mem.blocks.length)) k = some (j', b'))
    (hk' : Function.update own i (some (j, mem.blocks.length)) k' = some (j'', b')) : k = k' := by
  have hnew : ∀ {k j'}, Function.update own i (some (j, mem.blocks.length)) k = some (j', b') →
      k = i → b' = mem.blocks.length := by
    intro k j' hk hki
    rw [hki, Function.update_self, Option.some.injEq, Prod.mk.injEq] at hk
    exact hk.2.symm
  by_cases hki : k = i
  · by_cases hki' : k' = i
    · rw [hki, hki']
    · exact absurd (h.claim_old hki' hk').2 (by rw [hnew hk hki]; exact Nat.lt_irrefl _)
  · by_cases hki' : k' = i
    · exact absurd (h.claim_old hki hk).2 (by rw [hnew hk' hki']; exact Nat.lt_irrefl _)
    · exact h.inj k k' j' j'' b' (h.claim_old hki hk).1 (h.claim_old hki' hk').1

/-- The claim writes to what its coroutine owns then. -/
theorem claim_log (h : PoolInv env vals own ⟨mem, ths⟩) (hfree : own i = none) {f : CoroFile}
    {vs : List Int} : ∀ w ∈ (claimed j i f vs mem).writes,
      Owns (Function.update own i (some (j, mem.blocks.length))) w.1 w.2 := by
  have hself : Function.update own i (some (j, mem.blocks.length)) i
      = some (j, mem.blocks.length) := Function.update_self ..
  intro w hw
  simp only [claimed] at hw
  rw [List.mem_append, List.mem_append] at hw
  rcases hw with (hw | hw) | hw
  · exact owns_mono (claim_mono hfree) (h.log w hw)
  · obtain rfl := List.mem_singleton.1 hw
    exact ⟨_, hself⟩
  · simp only [List.mem_cons, List.not_mem_nil, or_false] at hw
    rcases hw with rfl | rfl | rfl
    · exact ⟨i, hself⟩
    · exact ⟨_, hself⟩
    · exact ⟨_, hself⟩

/-- A coroutine claims a file and reads it into a new array. -/
theorem claim (h : PoolInv env vals own ⟨mem, ths⟩) (hl : ths[j]? = some (some l))
    (hfile : l.file? = none) {vs : List Int} (hvs : vals[i]? = some vs) (hfree : own i = none)
    {f : CoroFile} (hf : mem.files[i]? = some f) :
    PoolInv env vals (Function.update own i (some (j, mem.blocks.length)))
      ⟨claimed j i f vs mem, ths.set j (some ⟨j, .afterRead i vs.length⟩)⟩ := by
  have hj := lt_of_get hl
  obtain ⟨f0, hf0, hindex, hprocessed, hread⟩ := h.file i vs hvs
  obtain rfl : f = f0 := Option.some.inj (hf.symm.trans hf0)
  have hself : Function.update own i (some (j, mem.blocks.length)) i
      = some (j, mem.blocks.length) := Function.update_self ..
  have hother : ∀ k, k ≠ i → Function.update own i (some (j, mem.blocks.length)) k = own k :=
    fun k hk => Function.update_of_ne hk ..
  constructor
  case small => exact h.small
  case files_length => exact List.length_set.trans h.files_length
  case numbers_length => exact List.length_set.trans h.numbers_length
  case file =>
    intro k vk hvk
    by_cases hk : k = i
    · subst hk
      obtain rfl : vs = vk := Option.some.inj (hvs.symm.trans hvk)
      exact ⟨_, List.getElem?_set_self (lt_of_get hf), hindex, by rw [hself]; rfl, hread⟩
    · rw [hother k hk]
      obtain ⟨g, hg, hrest⟩ := h.file k vk hvk
      exact ⟨g, (List.getElem?_set_ne (Ne.symm hk)).trans hg, hrest⟩
  case numbers =>
    intro k hk
    have hnum := h.numbers k hk
    by_cases hki : k = i
    · subst hki
      rw [hself]
      exact List.getElem?_set_self (lt_of_get hnum)
    · rw [hother k hki]
      exact (List.getElem?_set_ne (Ne.symm hki)).trans hnum
  case lengths =>
    intro k vk hvk
    obtain ⟨n, hn, hlen⟩ := h.lengths k vk hvk
    by_cases hk : k = i
    · subst hk
      obtain rfl : vs = vk := Option.some.inj (hvs.symm.trans hvk)
      exact ⟨_, List.getElem?_set_self (lt_of_get hn), fun _ => rfl⟩
    · rw [hother k hk]
      exact ⟨n, (List.getElem?_set_ne (Ne.symm hk)).trans hn, hlen⟩
  case args => exact h.args_set _
  case claims =>
    intro k
    have hclaims := h.claims k
    simp only [claimed, claimants_append]
    by_cases hk : k = i
    · subst hk
      rw [hfree] at hclaims
      rw [hclaims, hself]
      simp [claimants]
    · rw [hother k hk, hclaims]
      simp [claimants, Ne.symm hk]
  case owned =>
    intro k j' b' hown
    by_cases hk : k = i
    · subst hk
      rw [hself, Option.some.injEq, Prod.mk.injEq] at hown
      obtain ⟨rfl, rfl⟩ := hown
      exact ⟨vs, vs, hvs, List.getElem?_concat_length, List.Perm.refl vs,
        Or.inl ⟨_, List.getElem?_set_self hj, rfl⟩⟩
    · obtain ⟨hown', hb'⟩ := h.claim_old hk hown
      obtain ⟨vk, a0, hvk, ha0, hperm0, hwork⟩ := h.owned k j' b' hown'
      exact ⟨vk, a0, hvk, (List.getElem?_append_left hb').trans ha0, hperm0,
        hwork.imp_left (working_set hl (by simp [hfile]))⟩
  case inj => exact fun k k' j' j'' b' hk hk' => h.claim_inj hk hk'
  case thread =>
    intro j' l0 hl0
    rcases get_set hl0 with ⟨rfl, heq⟩ | ⟨-, hl0⟩
    · obtain rfl := Option.some.inj heq
      refine ⟨rfl, fun i0 hi0 => ?_⟩
      obtain rfl : i = i0 := Option.some.inj hi0
      exact ⟨_, vs, hself, List.getElem?_concat_length, rfl⟩
    · obtain ⟨hargs0, hfile0⟩ := h.thread j' l0 hl0
      refine ⟨hargs0, fun i0 hi0 => ?_⟩
      obtain ⟨b0, a0, hown0, ha0, hsorts0⟩ := hfile0 i0 hi0
      exact ⟨b0, a0, claim_mono hfree _ _ hown0,
        (List.getElem?_append_left (lt_of_get ha0)).trans ha0, hsorts0⟩
  case log => exact h.claim_log hfree
  case finished =>
    intro j' hj' k hk
    have hsome : (own k).isSome = true := h.finished_set _ j' hj' k hk
    by_cases hki : k = i
    · rw [hki, hself]
      rfl
    · rw [hother k hki]
      exact hsome

end PoolInv

end SysProg.MergeSort
