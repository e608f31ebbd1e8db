import SysProg.MergeSort.Sorting
import SysProg.MergeSort.Writes

set_option autoImplicit false

/-! # Every file is sorted by exactly one coroutine

Whatever the order in which the coroutines of a pool are resumed, each file is claimed by one of
them, only that one writes what belongs to the file, and when all have returned all files are
sorted. -/

namespace SysProg.MergeSort

open Libcoro

/-! ## The pool at the start -/

/-- The tables of `main` for the files `names`, before any coroutine is created. -/
def tables (names : List (List CChar)) : Mem :=
  { files := names.mapIdx fun i name => ⟨name, false, i⟩
    numbers := List.replicate names.length none
    arraysLength := List.replicate names.length 0
    blocks := [], args := [], ticks := 0, writes := [], output := [] }

/-- `struct coro_args`, as `main` fills it in. -/
def newArgs (filesLength : Nat) : CoroArgs :=
  { switchCount := 0, filesLength := filesLength, tInvoked := 0, tSummary := 0 }

/-- A new coroutine, with its arguments. -/
def Pool.spawn (p : Pool) : Pool :=
  { mem := { p.mem with args := p.mem.args ++ [newArgs p.mem.files.length] }
    threads := p.threads ++ [some ⟨p.threads.length, .start⟩] }

/-- `m` coroutines for the files `names`. -/
def Pool.init (names : List (List CChar)) : Nat → Pool
  | 0 => ⟨tables names, []⟩
  | m + 1 => (Pool.init names m).spawn

/-- The files `names` hold the integers `vals`, fewer than `2 ^ 30` each. -/
def Holds (env : Env) (names : List (List CChar)) (vals : List (List Int)) : Prop :=
  List.Forall₂ (fun name vs => (∃ n, readFile env name = pure (vs, n)) ∧ vs.length < 2 ^ 30) names vals

theorem Holds.get {env : Env} {names : List (List CChar)} {vals : List (List Int)}
    (h : Holds env names vals) {i : Nat} {vs : List Int} (hvs : vals[i]? = some vs) :
    ∃ name, names[i]? = some name ∧ readFile env name = pure (vs, (vs.length : Int)) ∧
      vs.length < 2 ^ 30 := by
  obtain ⟨hi, rfl⟩ := List.getElem?_eq_some_iff.1 hvs
  have hlen : names.length = vals.length := List.Forall₂.length_eq h
  obtain ⟨⟨n, hread⟩, hsmall⟩ := List.Forall₂.get h (by omega) hi
  obtain ⟨rfl, -⟩ := readFile_length hread
  exact ⟨names[i], List.getElem?_eq_getElem (by omega), hread, hsmall⟩

section Start

variable {env : Env} {names : List (List CChar)} {vals : List (List Int)}

theorem tables_inv (h : Holds env names vals) :
    PoolInv env vals (fun _ => none) ⟨tables names, []⟩ := by
  have hlen : names.length = vals.length := h.length_eq
  constructor
  case small => exact fun i vs hvs => (h.get hvs).elim fun _ hname => hname.2.2
  case files_length => simp [tables, hlen]
  case numbers_length => simp [tables, hlen]
  case file =>
    intro i vs hvs
    obtain ⟨name, hname, hread, -⟩ := h.get hvs
    exact ⟨⟨name, false, i⟩, by simp [tables, hname], rfl, rfl, hread⟩
  case numbers =>
    intro i hi
    simp [tables, hlen, hi]
  case lengths =>
    intro i vs hvs
    have hi := PoolInv.lt_of_get hvs
    exact ⟨0, by simp [tables, hlen, hi], by simp⟩
  case args => exact fun j hj => absurd hj (Nat.not_lt_zero j)
  case claims => exact fun _ => rfl
  case owned => exact fun i j b hown => by cases hown
  case inj => exact fun i i' j j' b hown => by cases hown
  case thread => exact fun j l hl => by cases hl
  case log => exact fun w hw => by cases hw
  case finished => exact fun j hj => by cases hj

/-- A new coroutine is the last one. -/
theorem getElem?_spawn (ths : List (Option Local)) (t : Option Local) (j : Nat) :
    (ths ++ [t])[j]? = if j = ths.length then some t else ths[j]? := by
  rcases Nat.lt_trichotomy j ths.length with hlt | rfl | hgt
  · rw [if_neg (Nat.ne_of_lt hlt), List.getElem?_append_left hlt]
  · rw [if_pos rfl, List.getElem?_concat_length]
  · rw [if_neg (Nat.ne_of_gt hgt), List.getElem?_eq_none hgt.le, List.getElem?_eq_none]
    rw [List.length_append, List.length_singleton]
    exact hgt

theorem PoolInv.spawn {own : Owners} {p : Pool} (h : PoolInv env vals own p)
    (hargs : p.mem.args.length = p.threads.length) : PoolInv env vals own p.spawn := by
  have hold : ∀ (j : Nat) t, p.spawn.threads[j]? = some t →
      p.threads[j]? = some t ∨ (j = p.threads.length ∧ t = some ⟨p.threads.length, .start⟩) := by
    intro j t ht
    rw [Pool.spawn, getElem?_spawn] at ht
    split_ifs at ht with hj
    · exact Or.inr ⟨hj, (Option.some.inj ht).symm⟩
    · exact Or.inl ht
  refine { h with args := ?args, owned := ?owned, thread := ?thread, finished := ?finished }
  case args =>
    intro j hj
    simp only [Pool.spawn, List.length_append, List.length_singleton] at hj
    rcases Nat.lt_or_ge j p.threads.length with hlt | hge
    · obtain ⟨r, hr, hlen⟩ := h.args j hlt
      exact ⟨r, (List.getElem?_append_left (PoolInv.lt_of_get hr)).trans hr, hlen⟩
    · have heq : j = p.mem.args.length := by omega
      subst heq
      exact ⟨_, List.getElem?_concat_length, h.files_length⟩
  case owned =>
    intro i j b hown
    obtain ⟨vs, a, hvs, ha, hperm, hwork⟩ := h.owned i j b hown
    refine ⟨vs, a, hvs, ha, hperm, hwork.imp_left ?_⟩
    rintro ⟨l, hl, hfile⟩
    exact ⟨l, (List.getElem?_append_left (PoolInv.lt_of_get hl)).trans hl, hfile⟩
  case thread =>
    intro j l hl
    rcases hold j _ hl with hl | ⟨rfl, hnew⟩
    · exact h.thread j l hl
    · obtain rfl := Option.some.inj hnew
      exact ⟨rfl, fun i hi => by cases hi⟩
  case finished =>
    intro j hj
    rcases hold j _ hj with hj | ⟨-, hj⟩
    · exact h.finished j hj
    · cases hj

theorem init_length (names : List (List CChar)) (m : Nat) :
    (Pool.init names m).threads.length = m ∧ (Pool.init names m).mem.args.length = m := by
  induction m with
  | zero => exact ⟨rfl, rfl⟩
  | succ m ih => simp [Pool.init, Pool.spawn, ih]

theorem init_inv (h : Holds env names vals) (m : Nat) :
    PoolInv env vals (fun _ => none) (Pool.init names m) := by
  induction m with
  | zero => exact tables_inv h
  | succ m ih =>
      obtain ⟨hths, hargs⟩ := init_length names m
      exact ih.spawn (hargs.trans hths.symm)

end Start

/-! ## Runs of the pool -/

theorem outcome_inj {t t' : Option Local} (h : outcome t = outcome t') : t = t' := by
  cases t <;> cases t' <;> cases h <;> rfl

variable {env : Env} {vals : List (List Int)} {own : Owners}

theorem PoolStep.inv {p p' : Pool} (hstep : PoolStep env p p') (h : PoolInv env vals own p) :
    (∃ own', PoolInv env vals own' p') ∧ p'.threads.length = p.threads.length := by
  cases hstep with
  | run hl hv hrun =>
      obtain ⟨t, mem, own', hrun', hinv, -⟩ := intermediate_run h hl hv
      rw [hrun, pure_inj, Prod.mk.injEq] at hrun'
      obtain ⟨ht, rfl⟩ := hrun'
      obtain rfl := outcome_inj ht
      exact ⟨⟨own', hinv⟩, List.length_set⟩

theorem pool_inv {names : List (List CChar)} (hread : Holds env names vals) {m : Nat} {p : Pool}
    (h : Relation.ReflTransGen (PoolStep env) (Pool.init names m) p) :
    (∃ own, PoolInv env vals own p) ∧ p.threads.length = m := by
  induction h with
  | refl => exact ⟨⟨_, init_inv hread m⟩, (init_length names m).1⟩
  | tail _ hstep ih =>
      obtain ⟨⟨own, hinv⟩, hlen⟩ := ih
      obtain ⟨hinv', hlen'⟩ := hstep.inv hinv
      exact ⟨hinv', hlen'.trans hlen⟩

/-- What has been claimed and by whom. -/
theorem PoolInv.claimants_eq {p : Pool} (h : PoolInv env vals own p) {i j b : Nat}
    (hown : own i = some (j, b)) : claimants p.mem.writes i = [j] := by
  rw [h.claims i, hown]
  rfl

/-- A file that is claimed, when no coroutine is at work. -/
theorem PoolInv.sorted {p : Pool} (h : PoolInv env vals own p)
    (hdone : ∀ t ∈ p.threads, t = none) {i : Nat} {vs : List Int} (hvs : vals[i]? = some vs)
    (hclaimed : (own i).isSome = true) :
    ∃ j b a, claimants p.mem.writes i = [j] ∧ p.mem.numbers[i]? = some (some b) ∧
      p.mem.blocks[b]? = some a ∧ a.Pairwise (· ≤ ·) ∧ a.Perm vs ∧
      p.mem.arraysLength[i]? = some (vs.length : Int) := by
  obtain ⟨⟨j, b⟩, hown⟩ := Option.isSome_iff_exists.1 hclaimed
  obtain ⟨vs', a, hvs', ha, hperm, hwork⟩ := h.owned i j b hown
  obtain rfl : vs = vs' := Option.some.inj (hvs.symm.trans hvs')
  obtain ⟨n, hn, hlen⟩ := h.lengths i vs hvs
  have hnum := h.numbers i (PoolInv.lt_of_get hvs)
  rw [hown, Option.map_some] at hnum
  rw [hlen hclaimed] at hn
  rcases hwork with ⟨l, hl, -⟩ | hsorted
  · have hnone := hdone _ (List.mem_of_getElem? hl)
    cases hnone
  · exact ⟨j, b, a, h.claimants_eq hown, hnum, ha, hsorted, hperm, hn⟩

/-- **Exactly one coroutine sorts each file**, in every order of resuming them: in every state a file
    is claimed at most once, only its claimant has written its pointer, its length or its integers,
    and every coroutine can go on and logs what it writes; when all have returned, every file is
    claimed, read and sorted. -/
theorem pool_exactly_once (env : Env) (names : List (List CChar)) (vals : List (List Int))
    (hread : Holds env names vals) (m : Nat) (hm : 1 ≤ m) (p : Pool)
    (h : Relation.ReflTransGen (PoolStep env) (Pool.init names m) p) :
    (∀ i, (claimants p.mem.writes i).length ≤ 1) ∧
    (∀ i j, (j, .numbers i) ∈ p.mem.writes ∨ (j, .arraysLength i) ∈ p.mem.writes ∨
      (∃ b, p.mem.numbers[i]? = some (some b) ∧ (j, .ints b) ∈ p.mem.writes) →
      claimants p.mem.writes i = [j]) ∧
    (∀ (j : Nat) l v, p.threads[j]? = some (some l) → Shows v j →
      ∃ t mem, intermediate env v l p.mem = pure (outcome t, mem) ∧ Logs j p.mem mem) ∧
    ((∀ t ∈ p.threads, t = none) → ∀ (i : Nat) vs, vals[i]? = some vs →
      ∃ j b a, claimants p.mem.writes i = [j] ∧ p.mem.numbers[i]? = some (some b) ∧
        p.mem.blocks[b]? = some a ∧ a.Pairwise (· ≤ ·) ∧ a.Perm vs ∧
        p.mem.arraysLength[i]? = some (vs.length : Int)) := by
  obtain ⟨⟨own, hinv⟩, hlen⟩ := pool_inv hread h
  refine ⟨fun i => ?_, fun i j hwrite => ?_, fun j l v hl hv => ?_, fun hdone i vs hvs => ?_⟩
  · rw [hinv.claims i]
    cases own i <;> simp
  · rcases hwrite with hw | hw | ⟨b, hb, hw⟩
    · obtain ⟨b, hown⟩ := hinv.log _ hw
      exact hinv.claimants_eq hown
    · obtain ⟨b, hown⟩ := hinv.log _ hw
      exact hinv.claimants_eq hown
    · obtain ⟨i', hown'⟩ := hinv.log _ hw
      have hi : i < vals.length := by
        rw [← hinv.numbers_length]
        exact PoolInv.lt_of_get hb
      have hnum := (hinv.numbers i hi).symm.trans hb
      obtain ⟨⟨j', b'⟩, hown, rfl⟩ := Option.map_eq_some_iff.1 (Option.some.inj hnum)
      obtain ⟨-, rfl⟩ := hinv.own_unique hown' hown
      exact hinv.claimants_eq hown
  · obtain ⟨t, mem, -, hrun, -⟩ := intermediate_run hinv hl hv
    have hlogs := intermediate_logs hrun
    rw [(hinv.thread j l hl).1] at hlogs
    exact ⟨t, mem, hrun, hlogs⟩
  · have hzero : 0 < p.threads.length := by omega
    have hfirst := List.getElem?_eq_getElem hzero
    rw [hdone _ (List.getElem_mem hzero)] at hfirst
    exact hinv.sorted hdone hvs (hinv.finished 0 hfirst i (PoolInv.lt_of_get hvs))

/-- One file `f` with the text `2 1`. -/
def oneFile : Env :=
  { content := fun name => if name = ascii ['f'] then some (ascii ['2', ' ', '1']) else none
    junk := fun _ => 0
    clock := fun _ => 0 }

theorem oneFile_holds : Holds oneFile [ascii ['f']] [[2, 1]] :=
  .cons ⟨⟨2, rfl⟩, by decide⟩ .nil

/-- The file `f` with the text `2 1` and the file `g` with the text `3`. -/
def twoFiles : Env :=
  { content := fun name =>
      if name = ascii ['f'] then some (ascii ['2', ' ', '1'])
      else if name = ascii ['g'] then some (ascii ['3']) else none
    junk := fun _ => 0
    clock := fun _ => 0 }

theorem twoFiles_holds : Holds twoFiles [ascii ['f'], ascii ['g']] [[2, 1], [3]] :=
  .cons ⟨⟨2, rfl⟩, by decide⟩ (.cons ⟨⟨1, rfl⟩, by decide⟩ .nil)

/-- What the library shows the coroutine `j`. -/
def viewOf (j : Nat) : View :=
  { coroThis := some (.node j), coroStatus := fun _ => pure 0, coroSwitchCount := fun _ => pure 0,
    coroIsFinished := fun _ => pure false }

theorem shows_viewOf (j : Nat) : Shows (viewOf j) j := ⟨rfl, 0, rfl⟩

/-- The coroutine `j` is resumed, if it has not returned. -/
def Pool.resume (env : Env) (p : Pool) (j : Nat) : Option Pool :=
  match p.threads[j]? with
  | some (some l) =>
    match intermediate env (viewOf j) l p.mem with
    | .ok (.ret 0, mem) => some ⟨mem, p.threads.set j none⟩
    | .ok (.call (.yield l'), mem) => some ⟨mem, p.threads.set j (some l')⟩
    | _ => none
  | _ => none

theorem Pool.resume_step {env : Env} {p p' : Pool} {j : Nat} (h : p.resume env j = some p') :
    PoolStep env p p' := by
  unfold Pool.resume at h
  split at h
  · next l hl =>
      split at h
      · next mem hrun =>
          obtain rfl := Option.some.inj h
          exact .run (t := none) hl (shows_viewOf j) hrun
      · next l' mem hrun =>
          obtain rfl := Option.some.inj h
          exact .run (t := some l') hl (shows_viewOf j) hrun
      · cases h
  · cases h

theorem Pool.resume_run {env : Env} {js : List Nat} {p p' : Pool}
    (h : js.foldlM (Pool.resume env) p = some p') : Relation.ReflTransGen (PoolStep env) p p' := by
  induction js generalizing p with
  | nil =>
      obtain rfl := Option.some.inj h
      exact .refl
  | cons j js ih =>
      rw [List.foldlM_cons, Option.bind_eq_bind, Option.bind_eq_some_iff] at h
      obtain ⟨p₁, hstep, hrun⟩ := h
      exact .head (Pool.resume_step hstep) (ih hrun)

/-- Two coroutines, resumed in turns until both have returned. -/
theorem pool_exactly_once_twoFiles :
    ∃ p, Relation.ReflTransGen (PoolStep twoFiles) (Pool.init [ascii ['f'], ascii ['g']] 2) p ∧
      (p.mem.blocks = [[1, 2], [3]] ∧ claimants p.mem.writes 0 = [0] ∧
        claimants p.mem.writes 1 = [1]) ∧
      ∀ (i : Nat) vs, [[2, 1], [3]][i]? = some vs →
        ∃ j b a, claimants p.mem.writes i = [j] ∧ p.mem.numbers[i]? = some (some b) ∧
          p.mem.blocks[b]? = some a ∧ a.Pairwise (· ≤ ·) ∧ a.Perm vs ∧
          p.mem.arraysLength[i]? = some (vs.length : Int) := by
  have hruns : (([0, 1, 0, 1, 0, 1, 0, 0, 0].foldlM (Pool.resume twoFiles)
      (Pool.init [ascii ['f'], ascii ['g']] 2)).any fun p => p.threads.all Option.isNone &&
        decide (p.mem.blocks = [[1, 2], [3]] ∧ claimants p.mem.writes 0 = [0] ∧
          claimants p.mem.writes 1 = [1])) = true := by decide +kernel
  obtain ⟨p, hrun, hp⟩ := (Option.any_eq_true _ _).1 hruns
  rw [Bool.and_eq_true, decide_eq_true_eq] at hp
  have hreach := Pool.resume_run hrun
  refine ⟨p, hreach, hp.2, ?_⟩
  refine (pool_exactly_once twoFiles _ _ twoFiles_holds 2 (by decide) p hreach).2.2.2 ?_
  exact fun t ht => Option.isNone_iff_eq_none.1 (List.all_eq_true.1 hp.1 t ht)

end SysProg.MergeSort
