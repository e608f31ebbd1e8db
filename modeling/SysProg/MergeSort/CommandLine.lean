import SysProg.Coro.Rounds
import SysProg.MergeSort.Ledger
import SysProg.MergeSort.ReadLoop
import SysProg.MergeSort.Reads

set_option autoImplicit false

/-! # Command lines (`1/solution/solution.c`)

`main` takes the files to sort from its arguments, and the number of coroutines from the option `-c`.
After the coroutines have been waited for it merges the arrays, whatever the command line was; with no
file there is no first array, and with no coroutine it has not been read. -/

namespace SysProg.MergeSort

open Libcoro

/-! ## The arguments of `main` -/

/-- `CORO_COUNT`. -/
def coroCount : Int := 6

/-- `atoi`. A number that is no `int` is undefined. -/
def atoi (nptr : List CChar) : C Int :=
  let s := nptr.dropWhile isSpace
  let negative := s.head? = some 45
  let number := if s.head? = some 45 ∨ s.head? = some 43 then s.tail else s
  let ds := number.takeWhile isDigit
  int32 (if negative then -decimal ds else decimal ds)

/-- `argc >= 3 && strcmp(argv[1], "-c") == 0`. -/
def hasOption (argv : List (List CChar)) : C Bool :=
  if 3 ≤ argv.length then do
    let arg ← load argv 1
    pure (decide (arg = ascii ['-', 'c']))
  else pure false

/-- What `main` takes from its arguments. -/
structure Args where
  filesCount : Int
  coroParam : Int
  /-- The names in `coro_files`. -/
  names : List (List CChar)

/-- The loop that fills `coro_files`: `n` names, from `argv[idx]` on. -/
def fileNames (argv : List (List CChar)) (idx : Int) : Nat → C (List (List CChar))
  | 0 => pure []
  | n + 1 => do
    let name ← load argv idx
    let names ← fileNames argv (idx + 1) n
    pure (name :: names)

/-- `main` up to `coro_sched_init`, for `argc = argv.length`. -/
def mainArgs (argv : List (List CChar)) : C Args := do
  let argc : Int := argv.length
  let filesCount := argc - 1
  if ← hasOption argv then do
    let arg ← load argv 2
    let coroParam ← atoi arg
    let filesCount := filesCount - 2
    let names ← fileNames argv (argc - filesCount) filesCount.toNat
    pure ⟨filesCount, coroParam, names⟩
  else do
    let names ← fileNames argv (argc - filesCount) filesCount.toNat
    pure ⟨filesCount, coroCount, names⟩

/-- A command line with some file, and without the option `-c` or with a positive number behind it. -/
def HasWork (argv : List (List CChar)) : Prop :=
  if hasOption argv = pure true then
    4 ≤ argv.length ∧ ∃ arg n, argv[2]? = some arg ∧ atoi arg = pure n ∧ 1 ≤ n
  else 2 ≤ argv.length

section Arguments

variable {argv : List (List CChar)} {args : Args}

theorem fileNames_length {n : Nat} {idx : Int} {names : List (List CChar)}
    (h : fileNames argv idx n = pure names) : names.length = n := by
  induction n generalizing idx names with
  | zero =>
      rw [← (pure_inj _ _).1 h]
      rfl
  | succ n ih =>
      obtain ⟨name, -, h⟩ := bind_eq_pure.1 h
      obtain ⟨rest, hrest, h⟩ := bind_eq_pure.1 h
      rw [← (pure_inj _ _).1 h, List.length_cons, ih hrest]

/-- The number of files is that of the names, but for an empty `argv`. -/
theorem mainArgs_filesCount (h : mainArgs argv = pure args) (hne : argv ≠ []) :
    args.filesCount = args.names.length := by
  have hpos := List.length_pos_iff.2 hne
  obtain ⟨b, hopt, h⟩ := bind_eq_pure.1 h
  cases b with
  | true =>
      have hlen : 3 ≤ argv.length := by
        unfold hasOption at hopt
        split at hopt
        · next hlen => exact hlen
        · cases hopt
      obtain ⟨arg, -, h⟩ := bind_eq_pure.1 h
      obtain ⟨n, -, h⟩ := bind_eq_pure.1 h
      obtain ⟨names, hnames, h⟩ := bind_eq_pure.1 h
      rw [← (pure_inj _ _).1 h]
      simp only [fileNames_length hnames]
      omega
  | false =>
      obtain ⟨names, hnames, h⟩ := bind_eq_pure.1 h
      rw [← (pure_inj _ _).1 h]
      simp only [fileNames_length hnames]
      omega

/-- When there is a file, and a coroutine to read it. -/
theorem hasWork_iff (h : mainArgs argv = pure args) :
    HasWork argv ↔ 1 ≤ args.filesCount ∧ 1 ≤ args.coroParam := by
  obtain ⟨b, hopt, h⟩ := bind_eq_pure.1 h
  rw [HasWork, hopt]
  cases b with
  | true =>
      obtain ⟨arg, harg, h⟩ := bind_eq_pure.1 h
      obtain ⟨n, hn, h⟩ := bind_eq_pure.1 h
      obtain ⟨names, -, h⟩ := bind_eq_pure.1 h
      have hget : argv[2]? = some arg := load_eq_pure (i := 2) harg
      rw [if_pos rfl, ← (pure_inj _ _).1 h]
      constructor
      · rintro ⟨hlen, arg', n', harg', hn', hpos⟩
        obtain rfl := Option.some.inj (hget.symm.trans harg')
        obtain rfl := (pure_inj _ _).1 (hn.symm.trans hn')
        exact ⟨by simp only; omega, hpos⟩
      · rintro ⟨hfiles, hpos⟩
        simp only at hfiles hpos
        exact ⟨by omega, arg, n, hget, hn, hpos⟩
  | false =>
      obtain ⟨names, -, h⟩ := bind_eq_pure.1 h
      have hcoro : (1 : Int) ≤ coroCount := by decide
      rw [if_neg (by simp), ← (pure_inj _ _).1 h]
      simp only [hcoro, and_true]
      omega

end Arguments

/-! ## When the coroutines have been waited for -/

theorem readFile_small {env : Env} {name : List CChar} {vs : List Int} {n : Int}
    (h : readFile env name = pure (vs, n)) : vs.length < 2 ^ 30 := by
  obtain ⟨hlen, -⟩ := readFile_length h
  unfold readFile at h
  split at h
  · cases h
  · obtain ⟨⟨temp, count⟩, hloop, h⟩ := bind_eq_pure.1 h
    have hsmall := readLoop_small ⟨0, by decide, rfl⟩ hloop
    simp only at h
    split at h
    · cases h
    · obtain ⟨rfl, rfl⟩ := Prod.mk.inj ((pure_inj _ _).1 h)
      omega

section Runs

variable {env : Env} {names : List (List CChar)} {m : Nat} {a b : Sched MainState Local Mem}

/-- When some coroutine has been started, all files are claimed in the end. -/
theorem Ledger.processed (h : Ledger env names m a) (hctl : a.control = .main (.waited none))
    (hm : 1 ≤ m) : ∀ (i : Nat) f, a.mem.files[i]? = some f → f.processed = true := by
  obtain ⟨hbrk, hmembers⟩ := h.at_end hctl
  refine h.returned ?_
  -- the first coroutine has returned
  have hcreated : CoroPtr.node 0 ∈ created a.trace := by
    rw [h.sched.book.created_eq]
    exact List.mem_map.2 ⟨0, List.mem_range.2 (by omega), rfl⟩
  have hwaited : CoroPtr.node 0 ∈ waited a.trace := by
    have hmem := h.sched.book.perm.symm.subset hcreated
    rwa [hmembers, List.append_nil] at hmem
  have hreturned := h.sched.waited_returned hwaited
  intro hnil
  rw [hnil] at hreturned
  cases hreturned

/-- The files are then ones that `read_file` reads, and none of them is empty. -/
theorem Ledger.holds (h : Ledger env names m a) (hctl : a.control = .main (.waited none))
    (hm : 1 ≤ m) : ∃ vals, Holds env names vals ∧ ∀ vs ∈ vals, vs ≠ [] := by
  have hread : ∀ name ∈ names, ∃ vs, readFile env name = pure (vs, (vs.length : Int)) := by
    intro name hname
    rw [← h.books.files] at hname
    obtain ⟨f, hf, rfl⟩ := List.mem_map.1 hname
    obtain ⟨i, hi⟩ := List.mem_iff_getElem?.1 hf
    exact h.books.readable i f hi (h.processed hctl hm i f hi)
  clear h
  induction names with
  | nil => exact ⟨[], .nil, by simp⟩
  | cons name names ih =>
      obtain ⟨vs, hvs⟩ := hread name (List.mem_cons_self ..)
      obtain ⟨vals, hvals, hne⟩ := ih fun n hn => hread n (List.mem_cons_of_mem _ hn)
      exact ⟨vs :: vals, .cons ⟨⟨_, hvs⟩, readFile_small hvs⟩ hvals,
        List.forall_mem_cons.2 ⟨(readFile_length hvs).2, hne⟩⟩

/-- After `coro_sched_wait` has returned NULL, `main` ends. -/
theorem waited_last (hctl : a.control = .main (.waited none))
    (h : Run.Reaches (Sched.step (program env m)) a b) (hb : b.control = .main (.waited none)) :
    b = a := by
  rcases Relation.ReflTransGen.cases_head h with rfl | ⟨c, hgoes, hcb⟩
  · rfl
  -- the step ends the program
  have hhalted : c.control = .halted := by
    rcases Sched.step_cases hgoes with ⟨k, hwait, -⟩ | ⟨k, call, mem, hmain, hrun, hcall⟩ |
      ⟨d, k, l, n, call, mem, hbody, -⟩
    · rw [hctl] at hwait
      cases hwait
    · rw [hctl] at hmain
      cases hmain
      obtain ⟨out, -, hpure⟩ := bind_eq_pure.1 (show main m (.waited none) a.mem = _ from hrun)
      obtain ⟨rfl, -⟩ := Prod.mk.inj ((pure_inj _ _).1 hpure)
      rw [← (lib_pure_inj _ _).1 hcall]
    · rw [hctl] at hbody
      cases hbody
  rcases Relation.ReflTransGen.cases_head hcb with rfl | ⟨d, hstop, -⟩
  · rw [hhalted] at hb
    cases hb
  · rw [Run.Goes, Sched.step, hhalted] at hstop
    cases hstop

/-- A run comes to this point once. -/
theorem waited_unique {s : Sched MainState Local Mem}
    (ha : Run.Reaches (Sched.step (program env m)) s a) (hctl : a.control = .main (.waited none))
    (hb : Run.Reaches (Sched.step (program env m)) s b) (hctl' : b.control = .main (.waited none)) :
    a = b := by
  rcases ha.total hb with h | h
  · exact (waited_last hctl h hctl').symm
  · exact waited_last hctl' h hctl

/-- The first array has elements exactly when some coroutine has been started. -/
theorem first_size_iff (hne : names ≠ [])
    (h : Run.Reaches (Sched.step (program env m)) (Sched.init (.start 0) (tables names)) a)
    (hctl : a.control = .main (.waited none)) :
    (∃ n, a.mem.arraysLength[0]? = some n ∧ 0 < n) ↔ 1 ≤ m := by
  rcases Nat.eq_zero_or_pos m with rfl | hm
  · -- nothing has been read
    have hrun : Run.Reaches (Sched.step (program env 0)) (Sched.init (.start 0) (tables names))
        { (Sched.init (.start 0) (tables names) : Sched MainState Local Mem) with
          control := .main (.waited none)
          trace := [.wait none] } := .tail (.tail .refl rfl) rfl
    rw [waited_unique h hctl hrun rfl]
    refine ⟨?_, fun hle => absurd hle (Nat.not_succ_le_zero 0)⟩
    rintro ⟨n, hn, hpos⟩
    have hzero : n = 0 := List.eq_of_mem_replicate (List.mem_of_getElem? hn)
    omega
  · refine ⟨fun _ => hm, fun _ => ?_⟩
    have hledger : Ledger env names m a := reaches_ledger 0 h
    obtain ⟨vals, hholds, hvals⟩ := hledger.holds hctl hm
    obtain ⟨b, hb, hwaited⟩ := reaches_waited hholds hm
    obtain rfl := waited_unique h hctl hb hwaited.control
    obtain ⟨-, hrows, -, hperm⟩ := hwaited.rows
    have hvals_ne : vals ≠ [] := by
      rintro rfl
      exact hne (List.length_eq_zero_iff.1 hholds.length_eq)
    obtain ⟨r, hr, hr_ne⟩ := first_ne_nil hperm hvals_ne hvals
    have hpos := List.length_pos_iff.2 hr_ne
    exact ⟨_, hrows.size 0 r hr, by omega⟩

end Runs

/-- **When the merge reads only elements of its rows**: for a command line with some file, and with a
    positive number of coroutines if it gives one. -/
theorem merge_reads_inRows_iff (env : Env) (argv : List (List CChar)) (args : Args)
    (hargs : mainArgs argv = pure args) (s : State MainState Local Mem)
    (h : Libcoro.Reaches (program env args.coroParam.toNat) (init (.start 0) (tables args.names)) s)
    (hpoint : s.point = .user (.main (.waited none))) :
    (∀ r ∈ (writeResultToFileRead s.mem.blocks s.mem.numbers s.mem.arraysLength args.filesCount).log,
      InRows s.mem.arraysLength args.filesCount r) ↔ argv = [] ∨ HasWork argv := by
  by_cases hne : argv = []
  · -- `calloc` gets no memory for -1 elements, and the program exits
    subst hne
    have hempty : (pure ⟨-1, coroCount, []⟩ : C Args) = pure args := hargs
    rw [← (pure_inj _ _).1 hempty]
    exact iff_of_true (fun r hr => by cases hr) (Or.inl rfl)
  obtain ⟨a, hreach, hrep, -⟩ := h.sched
  have hctl := hrep.control_main hpoint
  rw [or_iff_right hne, hasWork_iff hargs, mainArgs_filesCount hargs hne, hrep.mem,
    writeResultToFileRead_inRows_iff]
  by_cases hnames : args.names = []
  · simp [hnames]
  · have hlen := List.length_pos_iff.2 hnames
    rw [first_size_iff hnames hreach hctl]
    omega

/-- The file `f`, sorted by the coroutines that `main` starts if it is told nothing. -/
theorem merge_reads_inRows_iff_oneFile :
    ∃ s, Libcoro.Reaches (program oneFile 6) (init (.start 0) (tables [ascii ['f']])) s ∧
      ((∀ r ∈ (writeResultToFileRead s.mem.blocks s.mem.numbers s.mem.arraysLength 1).log,
        InRows s.mem.arraysLength 1 r) ↔
      [ascii ['s'], ascii ['f']] = [] ∨ HasWork [ascii ['s'], ascii ['f']]) := by
  obtain ⟨s, hs, hpoint⟩ := library_waited oneFile_holds (show 1 ≤ 6 by decide)
  exact ⟨s, hs, merge_reads_inRows_iff oneFile [ascii ['s'], ascii ['f']] ⟨1, 6, [ascii ['f']]⟩ rfl s
    hs hpoint⟩

/-- `-c 0 f`: no coroutine reads the file, and the merge reads the first element of an array that
    does not exist. -/
theorem merge_reads_noCoroutine :
    ¬ ∀ (env : Env) (argv : List (List CChar)) (args : Args), mainArgs argv = pure args →
      ∀ s, Libcoro.Reaches (program env args.coroParam.toNat) (init (.start 0) (tables args.names)) s →
      s.point = .user (.main (.waited none)) →
      ∀ r ∈ (writeResultToFileRead s.mem.blocks s.mem.numbers s.mem.arraysLength
        args.filesCount).log, InRows s.mem.arraysLength args.filesCount r := by
  intro hall
  have hrun : ∃ s, Libcoro.Reaches (program oneFile 0) (init (.start 0) (tables [ascii ['f']])) s ∧
      s.point = .user (.main (.waited none)) ∧ s.mem.arraysLength = [0] ∧
      ((0, 0) : Nat × Int) ∈ (writeResultToFileRead s.mem.blocks s.mem.numbers s.mem.arraysLength
        1).log :=
    ⟨_, .tail (.tail .refl rfl) rfl, rfl, rfl, List.mem_cons_self ..⟩
  obtain ⟨s, hs, hpoint, hsizes, hread⟩ := hrun
  obtain ⟨-, -, n, hn, hpos⟩ := hall oneFile
    [ascii ['s'], ascii ['-', 'c'], ascii ['0'], ascii ['f']] ⟨1, 0, [ascii ['f']]⟩ rfl s hs hpoint
    (0, 0) hread
  rw [hsizes] at hn
  cases hn
  exact absurd hpos (Int.lt_irrefl 0)

end SysProg.MergeSort
