import SysProg.Shell.Parser

set_option autoImplicit false

/-! # Grouping tokens into commands (`2/solution/command.c`)

From here on a C string is represented by its characters, without the terminating NUL: `strdup` is
one more block with the same characters, and `strcmp` is equality. -/

namespace SysProg.Shell

def strdup (s : List CChar) : Alloc (List CChar) := do
  malloc
  pure s

@[simp] theorem strdup_run (s : List CChar) (live : Int) :
    (strdup s).run live = pure (s, live + 1) := by
  simp [strdup]

/-- `struct cmd`. -/
structure Cmd where
  name : List CChar
  /-- The entries of `argv`; the array is NULL when there are none. -/
  argv : List (List CChar)
  argc : Nat
  special : Bool
deriving DecidableEq, Repr

def cmdInit (name : List CChar) : Alloc Cmd := do
  malloc
  pure { name := name, argv := [], argc := 0, special := false }

/-- `>` and `>>`. -/
def isRedirect (arg : List CChar) : Bool := arg == [chGt] || arg == [chGt, chGt]

/-- `||`, `&&`, `|` and `&`. -/
def isConnective (arg : List CChar) : Bool :=
  arg == [chPipe, chPipe] || arg == [chAmp, chAmp] || arg == [chPipe] || arg == [chAmp]

/-- The variables of `parse_cmds`. The slots of `cmds` are `none` until they are written. -/
structure CmdState where
  cmds : List (Option Cmd)
  index : Nat
  temp : Cmd
deriving DecidableEq, Repr

/-- `size += n` and the `realloc` of `cmds` to this size. -/
def CmdState.grow (s : CmdState) (n : Nat) : CmdState :=
  { s with cmds := s.cmds ++ List.replicate n none }

/-- `cmds[index] = temp`. -/
def storeCmd (s : CmdState) : Alloc CmdState :=
  if s.index < s.cmds.length then pure { s with cmds := s.cmds.set s.index (some s.temp) }
  else throw .undefined

/-- `cmds[index++] = temp`. -/
def pushCmd (s : CmdState) : Alloc CmdState := do
  let s ← storeCmd s
  pure { s with index := s.index + 1 }

/-- `temp->argv[temp->argc++] = arg`, in an array grown by one entry. -/
def cmdAddArg (temp : Cmd) (arg : List CChar) : Alloc Cmd := do
  if temp.argv = [] then malloc
  pure { temp with argv := temp.argv ++ [arg], argc := temp.argc + 1 }

/-- The loop of `parse_cmds` over the tokens from `argv[i]` on. -/
def parseCmdsLoop (s : CmdState) : List (List CChar) → Alloc CmdState
  | [] => pure s
  | arg :: rest =>
    if isRedirect arg then do
      let s ← pushCmd (s.grow 1)
      let name ← strdup arg
      let temp ← cmdInit name
      parseCmdsLoop { s with temp := { temp with special := true } } rest
    else if isConnective arg then do
      let s ← pushCmd (s.grow 2)
      let name ← strdup arg
      let temp ← cmdInit name
      let s ← pushCmd { s with temp := { temp with special := true } }
      match rest with
      | next :: rest => do
        let name ← strdup next
        let temp ← cmdInit name
        parseCmdsLoop { s with temp := temp } rest
      | [] => pure { s with index := s.index - 1 }
    else do
      let arg ← strdup arg
      let temp ← cmdAddArg s.temp arg
      parseCmdsLoop { s with temp := temp } rest

/-- `parse_cmds`: `none` stands for NULL. -/
def parseCmds (argv : List (List CChar)) (argc : Int) : Alloc (Option (Pair (Option Cmd))) :=
  if argc < 1 then pure none
  else if argv.length < argc then throw .undefined
  else
    match argv.take argc.toNat with
    | [] => throw .undefined
    | arg :: rest => do
      malloc
      let name ← strdup arg
      let temp ← cmdInit name
      let s ← parseCmdsLoop { cmds := [none], index := 0, temp := temp } rest
      let s ← storeCmd s
      let p ← makePair s.cmds (s.index + 1)
      pure (some p)

/-- Freeing the first `n` strings of an array. -/
def freeStrings : Nat → List (List CChar) → Alloc Unit
  | 0, _ => pure ()
  | _ + 1, [] => throw .undefined
  | n + 1, _ :: rest => do
      free
      freeStrings n rest

def cmdFree (cmd : Cmd) : Alloc Unit := do
  free
  freeStrings cmd.argc cmd.argv
  if cmd.argv ≠ [] then free
  free

/-! ## The commands of a token list -/

/-- `cmd` with one more argument. -/
def Cmd.addArg (cmd : Cmd) (arg : List CChar) : Cmd :=
  { cmd with argv := cmd.argv ++ [arg], argc := cmd.argc + 1 }

/-- A command without arguments. -/
def Cmd.ofName (name : List CChar) (special : Bool) : Cmd :=
  { name := name, argv := [], argc := 0, special := special }

/-- The commands of the tokens `args` that follow the start of `cmd`. -/
def groupCmds (cmd : Cmd) : List (List CChar) → List Cmd
  | [] => [cmd]
  | arg :: rest =>
    if isRedirect arg then cmd :: groupCmds (.ofName arg true) rest
    else if isConnective arg then
      match rest with
      | next :: rest => cmd :: .ofName arg true :: groupCmds (.ofName next false) rest
      | [] => [cmd, .ofName arg true]
    else groupCmds (cmd.addArg arg) rest

theorem groupCmds_redirect {arg : List CChar} (h : isRedirect arg = true) (cmd : Cmd)
    (rest : List (List CChar)) :
    groupCmds cmd (arg :: rest) = cmd :: groupCmds (.ofName arg true) rest := by
  rw [groupCmds.eq_def]
  exact if_pos h

theorem groupCmds_word {arg : List CChar} (hred : isRedirect arg = false)
    (hcon : isConnective arg = false) (cmd : Cmd) (rest : List (List CChar)) :
    groupCmds cmd (arg :: rest) = groupCmds (cmd.addArg arg) rest := by
  rw [groupCmds.eq_def]
  simp only [hred, hcon, Bool.false_eq_true, if_false]

theorem groupCmds_connective {arg : List CChar} (hred : ¬ isRedirect arg = true)
    (hcon : isConnective arg = true) (cmd : Cmd) (next : List CChar) (rest : List (List CChar)) :
    groupCmds cmd (arg :: next :: rest)
      = cmd :: .ofName arg true :: groupCmds (.ofName next false) rest := by
  rw [groupCmds, if_neg hred, if_pos hcon]

theorem groupCmds_trailing {arg : List CChar} (hred : ¬ isRedirect arg = true)
    (hcon : isConnective arg = true) (cmd : Cmd) :
    groupCmds cmd [arg] = [cmd, .ofName arg true] := by
  rw [groupCmds, if_neg hred, if_pos hcon]

/-- The commands of a line's tokens. -/
def commands : List (List CChar) → List Cmd
  | [] => []
  | arg :: rest => groupCmds (.ofName arg false) rest

/-- The tokens `parse_cmds` takes for operators. -/
def isOperatorToken (arg : List CChar) : Bool := isRedirect arg || isConnective arg

/-- Tokens that are no operators are arguments of the command they follow. -/
theorem groupCmds_words (cmd : Cmd) (args : List (List CChar))
    (h : ∀ a ∈ args, isOperatorToken a = false) :
    groupCmds cmd args
      = [{ cmd with argv := cmd.argv ++ args, argc := cmd.argc + args.length }] := by
  induction args generalizing cmd with
  | nil => simp [groupCmds]
  | cons arg args ih =>
      obtain ⟨harg, hargs⟩ := List.forall_mem_cons.1 h
      rw [isOperatorToken, Bool.or_eq_false_iff] at harg
      rw [groupCmds_word harg.1 harg.2, ih (cmd.addArg arg) hargs]
      simp [Cmd.addArg, Nat.add_assoc, Nat.add_comm 1]

theorem groupCmds_length_pos (cmd : Cmd) (args : List (List CChar)) :
    0 < (groupCmds cmd args).length := by
  induction cmd, args using groupCmds.induct with
  | case1 cmd => simp [groupCmds]
  | case2 cmd arg rest hred ih => simp [groupCmds_redirect hred]
  | case3 cmd arg hred hcon next rest ih => simp [groupCmds_connective hred hcon]
  | case4 cmd arg hred hcon => simp [groupCmds_trailing hred hcon]
  | case5 cmd arg rest hred hcon ih =>
      rwa [groupCmds_word (Bool.eq_false_iff.2 hred) (Bool.eq_false_iff.2 hcon)]

/-- A line is one command exactly when none of its tokens but the first is an operator. -/
theorem groupCmds_length_eq_one (cmd : Cmd) (args : List (List CChar)) :
    (groupCmds cmd args).length = 1 ↔ ∀ a ∈ args, isOperatorToken a = false := by
  induction cmd, args using groupCmds.induct with
  | case1 cmd => simp [groupCmds]
  | case2 cmd arg rest hred ih =>
      have hpos := groupCmds_length_pos (.ofName arg true) rest
      rw [groupCmds_redirect hred, List.forall_mem_cons, isOperatorToken, hred]
      simp only [List.length_cons, Bool.true_or, Bool.true_eq_false, false_and, iff_false]
      omega
  | case3 cmd arg hred hcon next rest ih =>
      simp [groupCmds_connective hred hcon, isOperatorToken, hcon]
  | case4 cmd arg hred hcon => simp [groupCmds_trailing hred hcon, isOperatorToken, hcon]
  | case5 cmd arg rest hred hcon ih =>
      rw [groupCmds_word (Bool.eq_false_iff.2 hred) (Bool.eq_false_iff.2 hcon), ih,
        List.forall_mem_cons, isOperatorToken, Bool.eq_false_iff.2 hred, Bool.eq_false_iff.2 hcon]
      simp

/-- The blocks a command owns: its record, its name, its array and the array's strings. -/
def Cmd.blocks (cmd : Cmd) : Int := 2 + cmd.argv.length + if cmd.argv = [] then 0 else 1

/-- The blocks the commands of a list own. -/
def blocksOf (cmds : List Cmd) : Int := (cmds.map Cmd.blocks).sum

@[simp] theorem blocksOf_nil : blocksOf [] = 0 := rfl

@[simp] theorem blocksOf_cons (cmd : Cmd) (cmds : List Cmd) :
    blocksOf (cmd :: cmds) = cmd.blocks + blocksOf cmds := by
  simp [blocksOf]

@[simp] theorem blocks_ofName (name : List CChar) (special : Bool) :
    (Cmd.ofName name special).blocks = 2 := by
  simp [Cmd.blocks, Cmd.ofName]

@[simp] theorem cmdInit_run (name : List CChar) (live : Int) :
    (cmdInit name).run live = pure (.ofName name false, live + 1) := by
  simp [cmdInit, Cmd.ofName]

theorem cmdAddArg_run (cmd : Cmd) (arg : List CChar) (live : Int) :
    (cmdAddArg cmd arg).run live
      = pure (cmd.addArg arg, live - 1 + ((cmd.addArg arg).blocks - cmd.blocks)) := by
  by_cases h : cmd.argv = []
  · simp only [cmdAddArg, h, Cmd.addArg, Cmd.blocks]
    simp
    omega
  · simp [cmdAddArg, h, Cmd.addArg, Cmd.blocks]

/-- The slots below `index` hold the commands `done`, and there is one more slot. -/
def CmdState.Holds (s : CmdState) (done : List Cmd) : Prop :=
  s.index = done.length ∧ s.cmds.take s.index = done.map some ∧ s.index < s.cmds.length

theorem pushCmd_run {s : CmdState} {done : List Cmd} (hs : s.Holds done)
    (hslot : s.index + 1 < s.cmds.length) (live : Int) :
    ∃ s', (pushCmd s).run live = pure (s', live) ∧ s'.Holds (done ++ [s.temp]) ∧
      s'.temp = s.temp ∧ s'.index = s.index + 1 ∧ s'.cmds.length = s.cmds.length := by
  obtain ⟨hindex, htake, hlt⟩ := hs
  refine ⟨{ s with cmds := s.cmds.set s.index (some s.temp), index := s.index + 1 },
    by simp [pushCmd, storeCmd, hlt], ⟨?_, ?_, ?_⟩, rfl, rfl, ?_⟩
  · simp [hindex]
  · simp only [List.map_append, ← htake]
    rw [List.take_add_one, List.take_set_of_le (le_refl _)]
    simp [hlt]
  · simpa using hslot
  · simp

theorem grow_holds {s : CmdState} {done : List Cmd} (hs : s.Holds done) (n : Nat) :
    (s.grow n).Holds done := by
  obtain ⟨hindex, htake, hlt⟩ := hs
  refine ⟨hindex, ?_, by simp only [CmdState.grow, List.length_append]; omega⟩
  rw [CmdState.grow, List.take_append_of_le_length (le_of_lt hlt), htake]

theorem length_grow (s : CmdState) (n : Nat) : (s.grow n).cmds.length = s.cmds.length + n := by
  simp [CmdState.grow]

/-- The two stores at a connective: the command before it, and its own. -/
theorem pushConnective_run {s : CmdState} {done : List Cmd} (hs : s.Holds done) (op : Cmd)
    (live live' : Int) :
    ∃ s1 s2, (pushCmd (s.grow 2)).run live = pure (s1, live) ∧
      (pushCmd { s1 with temp := op }).run live' = pure (s2, live') ∧
      s2.Holds (done ++ [s.temp] ++ [op]) ∧ s2.temp = op := by
  have hlt := hs.2.2
  have hslot : (s.grow 2).index + 1 < (s.grow 2).cmds.length := by
    rw [length_grow]
    show s.index + 1 < _
    omega
  obtain ⟨s1, hpush1, hs1, -, hindex, hlen⟩ := pushCmd_run (grow_holds hs 2) hslot live
  have hslot' : s1.index + 1 < s1.cmds.length := by
    rw [hlen, hindex, length_grow]
    show s.index + 1 + 1 < _
    omega
  have hop : CmdState.Holds { s1 with temp := op } (done ++ [s.temp]) := hs1
  obtain ⟨s2, hpush2, hs2, htemp, -, -⟩ := pushCmd_run hop hslot' live'
  exact ⟨s1, s2, hpush1, hpush2, hs2, htemp⟩

/-- `index--`: the last command stored is `temp` again. -/
theorem holds_pred {s : CmdState} {done : List Cmd} {cmd : Cmd} (hs : s.Holds (done ++ [cmd])) :
    CmdState.Holds { s with index := s.index - 1 } done := by
  obtain ⟨hindex, htake, hlt⟩ := hs
  have hlen : s.index = done.length + 1 := by rw [hindex]; simp
  refine ⟨by simp [hlen], ?_, by simp only; omega⟩
  have hcut := congrArg (List.take (s.index - 1)) htake
  rw [List.take_take, min_eq_left (Nat.sub_le _ 1), hlen] at hcut
  simp only [hlen]
  simpa using hcut

/-- The loop of `parse_cmds` stores every command but the last, which it leaves in `temp`. -/
theorem parseCmdsLoop_run (cmd : Cmd) (args : List (List CChar)) : ∀ (s : CmdState)
    (done : List Cmd) (live : Int), s.temp = cmd → s.Holds done →
    ∃ s' done', (parseCmdsLoop s args).run live
        = pure (s', live + (blocksOf (groupCmds cmd args) - cmd.blocks)) ∧
      s'.Holds done' ∧ done' ++ [s'.temp] = done ++ groupCmds cmd args := by
  induction cmd, args using groupCmds.induct with
  | case1 cmd =>
      intro s done live htemp hs
      exact ⟨s, done, by simp [parseCmdsLoop, groupCmds], hs, by rw [htemp, groupCmds]⟩
  | case2 cmd arg rest hred ih =>
      intro s done live htemp hs
      have hslot : (s.grow 1).index + 1 < (s.grow 1).cmds.length := by
        have hlt := hs.2.2
        rw [length_grow]
        show s.index + 1 < _
        omega
      obtain ⟨s1, hpush, hs1, -, -, -⟩ := pushCmd_run (grow_holds hs 1) hslot live
      obtain ⟨s', done', hrun, hs', hdone⟩ := ih { s1 with temp := .ofName arg true }
        (done ++ [cmd]) (live + 1 + 1) rfl (by rw [← htemp]; exact hs1)
      rw [groupCmds_redirect hred]
      refine ⟨s', done', ?_, hs', ?_⟩
      · simp only [parseCmdsLoop, hred, if_true, StateT.run_bind, hpush, pure_bind, strdup_run,
          cmdInit_run]
        refine hrun.trans ?_
        rw [blocksOf_cons, blocks_ofName, pure_inj, Prod.mk.injEq]
        exact ⟨rfl, by ring⟩
      · rw [hdone]
        simp
  | case3 cmd arg hred hcon next rest ih =>
      intro s done live htemp hs
      obtain ⟨s1, s2, hpush1, hpush2, hs2, -⟩ :=
        pushConnective_run hs (.ofName arg true) live (live + 1 + 1)
      rw [htemp] at hs2
      obtain ⟨s', done', hrun, hs', hdone⟩ := ih { s2 with temp := .ofName next false }
        (done ++ [cmd] ++ [Cmd.ofName arg true]) (live + 1 + 1 + 1 + 1) rfl hs2
      refine ⟨s', done', ?_, hs', ?_⟩
      · simp only [parseCmdsLoop, hred, hcon, if_true, if_false, StateT.run_bind, hpush1, pure_bind,
          strdup_run, cmdInit_run, Bool.false_eq_true]
        show (do let p ← (pushCmd { s1 with temp := .ofName arg true }).run (live + 1 + 1); _) = _
        rw [hpush2]
        simp only [pure_bind]
        refine hrun.trans ?_
        rw [groupCmds_connective hred hcon, blocksOf_cons, blocksOf_cons, blocks_ofName,
          blocks_ofName, pure_inj, Prod.mk.injEq]
        exact ⟨rfl, by ring⟩
      · rw [hdone, groupCmds_connective hred hcon]
        simp
  | case4 cmd arg hred hcon =>
      intro s done live htemp hs
      obtain ⟨s1, s2, hpush1, hpush2, hs2, htemp2⟩ :=
        pushConnective_run hs (.ofName arg true) live (live + 1 + 1)
      rw [htemp] at hs2
      refine ⟨{ s2 with index := s2.index - 1 }, done ++ [cmd], ?_, holds_pred hs2, ?_⟩
      · simp only [parseCmdsLoop, hred, hcon, if_true, if_false, StateT.run_bind, hpush1, pure_bind,
          strdup_run, cmdInit_run, Bool.false_eq_true]
        show (do let p ← (pushCmd { s1 with temp := .ofName arg true }).run (live + 1 + 1); _) = _
        rw [hpush2, groupCmds_trailing hred hcon]
        simp only [pure_bind, StateT.run_pure, blocksOf_cons, blocks_ofName, blocksOf_nil, pure_inj,
          Prod.mk.injEq, true_and]
        ring
      · rw [htemp2, groupCmds_trailing hred hcon]
        simp
  | case5 cmd arg rest hred hcon ih =>
      intro s done live htemp hs
      obtain ⟨s', done', hrun, hs', hdone⟩ := ih { s with temp := cmd.addArg arg } done
        (live + 1 - 1 + ((cmd.addArg arg).blocks - cmd.blocks)) rfl hs
      rw [groupCmds_word (Bool.eq_false_iff.2 hred) (Bool.eq_false_iff.2 hcon)]
      refine ⟨s', done', ?_, hs', hdone⟩
      simp only [parseCmdsLoop, hred, hcon, if_false, StateT.run_bind, strdup_run, pure_bind,
        htemp, cmdAddArg_run, Bool.false_eq_true]
      refine hrun.trans ?_
      rw [pure_inj, Prod.mk.injEq]
      exact ⟨rfl, by ring⟩

/-- **`parse_cmds` groups**: on the tokens of a line it returns their commands, in the first slots
    of its array, and their number. -/
theorem parseCmds_run (arg : List CChar) (args : List (List CChar)) (live : Int) :
    ∃ p : Pair (Option Cmd), (parseCmds (arg :: args) (arg :: args).length).run live
        = pure (some p, live + 2 + blocksOf (commands (arg :: args))) ∧
      p.first.take p.second.toNat = (commands (arg :: args)).map some ∧
      p.second = (commands (arg :: args)).length := by
  have hinit : CmdState.Holds { cmds := [none], index := 0, temp := .ofName arg false } [] :=
    ⟨rfl, rfl, by simp⟩
  obtain ⟨s, done, hrun, ⟨hindex, htake, hlt⟩, hdone⟩ := parseCmdsLoop_run (.ofName arg false) args
    { cmds := [none], index := 0, temp := .ofName arg false } [] (live + 1 + 1 + 1) rfl hinit
  have hone : ¬ (((arg :: args).length : Int) < 1) := by simp
  have hlen : (commands (arg :: args)).length = s.index + 1 := by
    have h := congrArg List.length hdone
    simp only [List.length_append, List.length_singleton, List.nil_append] at h
    rw [commands, ← h, hindex]
  refine ⟨⟨s.cmds.set s.index (some s.temp), s.index + 1⟩, ?_, ?_, by rw [hlen]; simp⟩
  · simp only [parseCmds, hone, if_false, lt_irrefl, Int.toNat_natCast, List.take_length,
      StateT.run_bind, malloc_run, pure_bind, strdup_run, cmdInit_run, hrun, storeCmd, if_pos hlt,
      StateT.run_pure, makePair, pure_inj, Prod.mk.injEq, commands, blocks_ofName, true_and]
    ring
  · have hcmds : commands (arg :: args) = done ++ [s.temp] := by rw [commands, hdone]; rfl
    have hnat : ((s.index : Int) + 1).toNat = s.index + 1 := by omega
    rw [hcmds, List.map_append, ← htake]
    simp only [hnat]
    rw [List.take_add_one, List.take_set_of_le (le_refl _)]
    simp [hlt]

/-! ## Freeing commands -/

theorem freeStrings_run (xs : List (List CChar)) (live : Int) :
    (freeStrings xs.length xs).run live = pure ((), live - xs.length) := by
  induction xs generalizing live with
  | nil => simp [freeStrings]
  | cons x xs ih =>
      simp only [List.length_cons, freeStrings, StateT.run_bind, free_run, pure_bind, ih, pure_inj,
        Prod.mk.injEq, true_and]
      push_cast
      ring

/-- `cmd_free` frees what a command owns. -/
theorem cmdFree_run {cmd : Cmd} (h : cmd.argc = cmd.argv.length) (live : Int) :
    (cmdFree cmd).run live = pure ((), live - cmd.blocks) := by
  by_cases hnil : cmd.argv = []
  · simp only [cmdFree, h, hnil, Cmd.blocks]
    simp [freeStrings]
    ring
  · simp only [cmdFree, h, StateT.run_bind, free_run, pure_bind, freeStrings_run, Cmd.blocks,
      if_neg hnil, if_pos (show cmd.argv ≠ [] from hnil), pure_inj, Prod.mk.injEq, true_and]
    ring

/-! ## What grouping keeps -/

/-- The tokens a command was made of. -/
def Cmd.tokens (cmd : Cmd) : List (List CChar) := cmd.name :: cmd.argv

/-- No argument is an operator, and a connective has no arguments. -/
structure Cmd.WellFormed (cmd : Cmd) : Prop where
  argc : cmd.argc = cmd.argv.length
  words : ∀ arg ∈ cmd.argv, isOperatorToken arg = false
  connective : cmd.special = true → isConnective cmd.name = true → cmd.argc = 0

theorem addArg_argc {cmd : Cmd} (h : cmd.argc = cmd.argv.length) (arg : List CChar) :
    (cmd.addArg arg).argc = (cmd.addArg arg).argv.length := by
  simp [Cmd.addArg, h]

theorem ofName_wellFormed (name : List CChar) (special : Bool) :
    (Cmd.ofName name special).WellFormed :=
  ⟨rfl, by simp [Cmd.ofName], fun _ _ => rfl⟩

theorem addArg_wellFormed {cmd : Cmd} (h : cmd.WellFormed) {arg : List CChar}
    (harg : isOperatorToken arg = false)
    (hcon : ¬ (cmd.special = true ∧ isConnective cmd.name = true)) :
    (cmd.addArg arg).WellFormed := by
  refine ⟨addArg_argc h.argc arg, ?_, fun hs hn => absurd ⟨hs, hn⟩ hcon⟩
  intro a ha
  rcases List.mem_append.1 ha with ha | ha
  · exact h.words a ha
  · rw [List.mem_singleton.1 ha]
    exact harg

theorem isConnective_of_isRedirect {arg : List CChar} (h : isRedirect arg = true) :
    isConnective arg = false := by
  simp only [isRedirect, Bool.or_eq_true, beq_iff_eq] at h
  rcases h with rfl | rfl <;> decide

/-- Grouping only inserts boundaries between the tokens. -/
theorem groupCmds_tokens (cmd : Cmd) (args : List (List CChar)) :
    (groupCmds cmd args).flatMap Cmd.tokens = cmd.tokens ++ args := by
  induction cmd, args using groupCmds.induct with
  | case1 cmd => simp [groupCmds]
  | case2 cmd arg rest hred ih =>
      rw [groupCmds_redirect hred, List.flatMap_cons, ih]
      rfl
  | case3 cmd arg hred hcon next rest ih =>
      rw [groupCmds_connective hred hcon, List.flatMap_cons, List.flatMap_cons, ih]
      rfl
  | case4 cmd arg hred hcon =>
      rw [groupCmds_trailing hred hcon]
      simp [Cmd.tokens, Cmd.ofName]
  | case5 cmd arg rest hred hcon ih =>
      rw [groupCmds_word (Bool.eq_false_iff.2 hred) (Bool.eq_false_iff.2 hcon), ih]
      simp [Cmd.tokens, Cmd.addArg]

/-- The command being collected is never a connective: those are stored at once. -/
theorem groupCmds_wellFormed (cmd : Cmd) (args : List (List CChar)) (h : cmd.WellFormed)
    (hopen : ¬ (cmd.special = true ∧ isConnective cmd.name = true)) :
    ∀ c ∈ groupCmds cmd args, c.WellFormed := by
  induction cmd, args using groupCmds.induct with
  | case1 cmd =>
      rw [groupCmds]
      exact List.forall_mem_singleton.2 h
  | case2 cmd arg rest hred ih =>
      rw [groupCmds_redirect hred]
      refine List.forall_mem_cons.2 ⟨h, ih (ofName_wellFormed arg true) ?_⟩
      rintro ⟨-, hcon⟩
      rw [show (Cmd.ofName arg true).name = arg from rfl, isConnective_of_isRedirect hred] at hcon
      exact Bool.false_ne_true hcon
  | case3 cmd arg hred hcon next rest ih =>
      rw [groupCmds_connective hred hcon]
      have hrest := ih (ofName_wellFormed next false) (fun hs => Bool.false_ne_true hs.1)
      exact List.forall_mem_cons.2 ⟨h, List.forall_mem_cons.2 ⟨ofName_wellFormed arg true, hrest⟩⟩
  | case4 cmd arg hred hcon =>
      rw [groupCmds_trailing hred hcon]
      exact List.forall_mem_cons.2 ⟨h, List.forall_mem_singleton.2 (ofName_wellFormed arg true)⟩
  | case5 cmd arg rest hred hcon ih =>
      have hred' := Bool.eq_false_iff.2 hred
      have hcon' := Bool.eq_false_iff.2 hcon
      rw [groupCmds_word hred' hcon']
      have harg : isOperatorToken arg = false := by rw [isOperatorToken, hred', hcon']; rfl
      exact ih (addArg_wellFormed h harg hopen) hopen

theorem commands_tokens (args : List (List CChar)) :
    (commands args).flatMap Cmd.tokens = args := by
  cases args with
  | nil => rfl
  | cons arg args => exact groupCmds_tokens _ args

theorem commands_wellFormed (args : List (List CChar)) : ∀ c ∈ commands args, c.WellFormed := by
  cases args with
  | nil => simp [commands]
  | cons arg args =>
      exact groupCmds_wellFormed _ args (ofName_wellFormed arg false)
        (fun hs => Bool.false_ne_true hs.1)

theorem commands_argc (args : List (List CChar)) :
    ∀ c ∈ commands args, c.argc = c.argv.length :=
  fun c hc => (commands_wellFormed args c hc).argc

/-- **Grouping loses nothing**: `parse_cmds` stays inside its slots and returns commands whose names
    and arguments are, in order, the tokens it was given. -/
theorem parseCmds_lossless (argv : List (List CChar)) (hne : argv ≠ []) (live : Int) :
    ∃ (p : Pair (Option Cmd)) (live' : Int) (cmds : List Cmd),
      (parseCmds argv argv.length).run live = pure (some p, live') ∧
      p.first.take p.second.toNat = cmds.map some ∧ p.second = cmds.length ∧
      cmds.flatMap (fun cmd => cmd.name :: cmd.argv) = argv ∧
      (∀ cmd ∈ cmds, cmd.argc = cmd.argv.length) ∧
      (∀ cmd ∈ cmds, ∀ arg ∈ cmd.argv, isRedirect arg = false ∧ isConnective arg = false) ∧
      ∀ cmd ∈ cmds, cmd.special = true → isConnective cmd.name = true → cmd.argc = 0 := by
  obtain ⟨arg, args, rfl⟩ := List.exists_cons_of_ne_nil hne
  obtain ⟨p, hrun, hslots, hlen⟩ := parseCmds_run arg args live
  have hwf := commands_wellFormed (arg :: args)
  refine ⟨p, _, commands (arg :: args), hrun, hslots, hlen, commands_tokens (arg :: args),
    fun cmd hcmd => (hwf cmd hcmd).argc, ?_, fun cmd hcmd => (hwf cmd hcmd).connective⟩
  intro cmd hcmd a ha
  have h := (hwf cmd hcmd).words a ha
  rwa [isOperatorToken, Bool.or_eq_false_iff] at h

/-- The tokens `a`, `>`, `b`, `|`. -/
theorem parseCmds_lossless_trailing :
    ∃ (p : Pair (Option Cmd)) (live' : Int) (cmds : List Cmd),
      (parseCmds [ascii ['a'], [chGt], ascii ['b'], [chPipe]]
        ([ascii ['a'], [chGt], ascii ['b'], [chPipe]] : List _).length).run 0
        = pure (some p, live') ∧
      p.first.take p.second.toNat = cmds.map some ∧ p.second = cmds.length ∧
      cmds.flatMap (fun cmd => cmd.name :: cmd.argv)
        = [ascii ['a'], [chGt], ascii ['b'], [chPipe]] ∧
      (∀ cmd ∈ cmds, cmd.argc = cmd.argv.length) ∧
      (∀ cmd ∈ cmds, ∀ arg ∈ cmd.argv, isRedirect arg = false ∧ isConnective arg = false) ∧
      ∀ cmd ∈ cmds, cmd.special = true → isConnective cmd.name = true → cmd.argc = 0 :=
  parseCmds_lossless _ (by simp) 0

end SysProg.Shell
