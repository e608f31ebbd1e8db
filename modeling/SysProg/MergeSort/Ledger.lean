import SysProg.MergeSort.Program
import SysProg.MergeSort.Turn

set_option autoImplicit false

/-! # What every run of the program keeps (`1/solution/solution.c`)

Whatever the files hold, and however many coroutines `main` starts: everything a step of the program
can do, and the books of `main` and of the files that every step keeps. A file that cannot be read
stops the run, so in every state that is reached the files claimed so far are ones that can be. -/

namespace SysProg.MergeSort

open Libcoro

/-! ## Steps of the program -/

/-- Where `main` is, and how many coroutines it has started there. -/
def Started (m : Nat) (a : Sched MainState Local Mem) : Prop :=
  match a.control with
  | .main (.start i) => i ≤ m ∧ a.brk = i
  | .main .wait => a.brk = m
  | .main (.waited none) => a.brk = m ∧ a.members = []
  | .main (.waited (some _)) => a.brk = m
  | .wait k => a.brk = m ∧ k = .waited
  | .body _ k => a.brk = m ∧ k = .waited
  | .halted => a.brk = m

/-- A step of the program from `a` to `a'`. -/
inductive ProgramStep (env : Env) (m : Nat) (a a' : Sched MainState Local Mem) : Prop
  /-- `main` starts a coroutine. -/
  | spawn (hctl : a.control = .main (.start a.brk)) (hlt : a.brk < m)
      (hmem : a'.mem = { a.mem with args := a.mem.args ++ [newArgs a.mem.files.length] })
      (hthreads : a'.threads
        = Function.update a.threads (.node a.brk) (some ⟨.ready ⟨a.brk, .start⟩, 0⟩))
      (hmembers : a'.members = .node a.brk :: a.members) (hbrk : a'.brk = a.brk + 1)
      (htrace : a'.trace = a.trace ++ [.new (.node a.brk)])
  /-- Neither a coroutine nor its arguments change. -/
  | quiet (hctl : ∀ c k, a.control ≠ .body c k)
      (hmem : ∃ out, a'.mem = { a.mem with output := out }) (hbrk : a'.brk = a.brk)
      (hthreads : a'.threads = a.threads ∨
        ∃ c ∈ waited a.trace, a'.threads = Function.update a.threads c none)
      (hmembers : ∀ c ∈ a.members, a.isFinished c = false → c ∈ a'.members)
      (htrace : ∃ es, a'.trace = a.trace ++ es ∧ returns es = [] ∧ ∀ c, .yield c ∉ es)
  /-- A coroutine goes on to its next `coro_yield`. -/
  | yields {c : CoroPtr} {l l' : Local} {n : Int} {q : CoroArgs} {place : Place} {count : Int}
      (hctl : a.control = .body c .waited) (ht : a.threads c = some ⟨.ready l, n⟩)
      (hturn : Turn env a.view l a.mem a'.mem q place count (.call (.yield l')))
      (hthreads : a'.threads = Function.update a.threads c (some ⟨.ready l', n + 1⟩))
      (hmembers : a'.members = a.members) (hbrk : a'.brk = a.brk)
      (htrace : ∃ d, a'.trace = a.trace ++ [.yield c, .switch d])
  /-- A coroutine goes on to its end. -/
  | finishes {c : CoroPtr} {l : Local} {n : Int} {q : CoroArgs} {place : Place} {count : Int}
      (hctl : a.control = .body c .waited) (ht : a.threads c = some ⟨.ready l, n⟩)
      (hturn : Turn env a.view l a.mem a'.mem q place count (.ret 0))
      (hthreads : a'.threads = Function.update a.threads c (some ⟨.finished 0, n⟩))
      (hmembers : a'.members = a.members) (hbrk : a'.brk = a.brk)
      (htrace : a'.trace = a.trace ++ [.ret c 0, .switch .sched])

section Steps

variable {env : Env} {m : Nat} {a a' : Sched MainState Local Mem}

theorem started_switchTo (h : a.brk = m) (d : Option CoroPtr) :
    Started m (a.switchTo .waited d) := by
  cases d with
  | none => exact ⟨h, rfl⟩
  | some d => exact ⟨h, rfl⟩

/-- `main` waits, or starts a round of the coroutines. -/
theorem wait_programStep (hctl : a.control = .wait .waited) (hbrk : a.brk = m) :
    Started m (a.wait .waited) ∧ ProgramStep env m a (a.wait .waited) := by
  have hbody : ∀ c k, a.control ≠ .body c k := by
    intro c k h
    rw [hctl] at h
    cases h
  unfold Sched.wait
  split
  · next c hfind =>
      have hfin := List.find?_some hfind
      refine ⟨hbrk, .quiet hbody ⟨a.mem.output, rfl⟩ rfl (Or.inl rfl) ?_
        ⟨[.wait (some (c, true, a.retOf c))], rfl, rfl, by simp⟩⟩
      intro d hd hdfin
      refine (List.mem_erase_of_ne ?_).2 hd
      rintro rfl
      rw [hfin] at hdfin
      cases hdfin
  · split
    · next hnil =>
        exact ⟨⟨hbrk, hnil⟩, .quiet hbody ⟨a.mem.output, rfl⟩ rfl (Or.inl rfl)
          (fun _ hd _ => hd) ⟨[.wait none], rfl, rfl, by simp⟩⟩
    · next c rest hcons =>
        exact ⟨⟨hbrk, rfl⟩, .quiet hbody ⟨a.mem.output, rfl⟩ rfl (Or.inl rfl) (fun _ hd _ => hd)
          ⟨[.switch c], rfl, rfl, by simp⟩⟩

/-- A step of `main`. -/
theorem main_programStep {k : MainState} {call : MainCall MainState Local} {mem : Mem}
    (hstarted : Started m a) (hctl : a.control = .main k)
    (hmain : main m k a.mem = pure (call, mem))
    (hcall : Sched.mainCall { a with mem := mem } call = pure a') :
    Started m a' ∧ ProgramStep env m a a' := by
  have hbody : ∀ c k, a.control ≠ .body c k := by
    intro c k h
    rw [hctl] at h
    cases h
  have hwait : (pure (.wait .waited, a.mem) : C (MainCall MainState Local × Mem)) = pure (call, mem) →
      a.brk = m → Started m a' ∧ ProgramStep env m a a' := by
    intro hpure hbrk
    obtain ⟨rfl, rfl⟩ := Prod.mk.inj ((pure_inj _ _).1 hpure)
    obtain rfl := (lib_pure_inj _ _).1 hcall
    exact ⟨⟨hbrk, rfl⟩, .quiet hbody ⟨a.mem.output, rfl⟩ rfl (Or.inl rfl) (fun _ hd _ => hd)
      ⟨[], (List.append_nil _).symm, rfl, by simp⟩⟩
  rw [Started, hctl] at hstarted
  rcases k with i | _ | _ | c
  case start =>
    obtain ⟨hle, rfl⟩ := hstarted
    rcases Nat.lt_or_eq_of_le hle with hlt | heq
    · rw [main, if_pos hlt] at hmain
      obtain ⟨rfl, rfl⟩ := Prod.mk.inj ((pure_inj _ _).1 hmain)
      obtain rfl := (lib_pure_inj _ _).1 hcall
      exact ⟨⟨hlt, rfl⟩, .spawn hctl hlt rfl rfl rfl rfl rfl⟩
    · rw [main, if_neg (by omega)] at hmain
      exact hwait hmain heq
  case wait => exact hwait hmain hstarted
  case waited.none =>
    obtain ⟨out, -, hpure⟩ := bind_eq_pure.1 hmain
    obtain ⟨rfl, rfl⟩ := Prod.mk.inj ((pure_inj _ _).1 hpure)
    obtain rfl := (lib_pure_inj _ _).1 hcall
    exact ⟨hstarted.1, .quiet hbody ⟨out, rfl⟩ rfl (Or.inl rfl) (fun _ hd _ => hd)
      ⟨[], (List.append_nil _).symm, rfl, by simp⟩⟩
  case waited.some =>
    obtain ⟨rfl, rfl⟩ := Prod.mk.inj ((pure_inj _ _).1 hmain)
    obtain ⟨b, hdel, hb⟩ := lib_bind hcall
    obtain rfl := (lib_pure_inj _ _).1 hb
    unfold Sched.delete at hdel
    split at hdel
    · next hwaited =>
        obtain rfl := (lib_pure_inj _ _).1 hdel
        exact ⟨hstarted, .quiet hbody ⟨a.mem.output, rfl⟩ rfl (Or.inr ⟨c, hwaited.1, rfl⟩)
          (fun _ hd _ => hd) ⟨[.delete c], rfl, rfl, by simp⟩⟩
    · cases hdel

/-- **Everything a step of the program can do.** -/
theorem programStep_of_goes (hstarted : Started m a)
    (hgoes : Run.Goes (Sched.step (program env m)) a a') :
    Started m a' ∧ ProgramStep env m a a' := by
  rcases Sched.step_cases hgoes with ⟨k, hctl, rfl⟩ | ⟨k, call, mem, hctl, hmain, hcall⟩ |
    ⟨c, k, l, n, call, mem, hctl, ht, hrun, hcall⟩
  · rw [Started, hctl] at hstarted
    obtain ⟨hbrk, rfl⟩ := hstarted
    exact wait_programStep hctl hbrk
  · exact main_programStep hstarted hctl hmain hcall
  · rw [Started, hctl] at hstarted
    obtain ⟨hbrk, rfl⟩ := hstarted
    obtain ⟨q, place, count, hturn⟩ := intermediate_turn (show intermediate env a.view l a.mem = _ from hrun)
    -- a turn ends in a `coro_yield` or in a return
    have hends : (∃ l', call = .call (.yield l')) ∨ call = .ret 0 := by
      cases hturn.ends with
      | merge => exact Or.inl ⟨_, rfl⟩
      | pass => exact Or.inl ⟨_, rfl⟩
      | read => exact Or.inl ⟨_, rfl⟩
      | ret => exact Or.inr rfl
    rcases hends with ⟨l', rfl⟩ | rfl
    · obtain rfl := (lib_pure_inj _ _).1 hcall
      refine ⟨started_switchTo ?_ _, ?_⟩
      · exact hbrk
      · rcases hsucc : LinkedList.succ c a.members with _ | d
        · refine .yields hctl ht hturn rfl rfl rfl ⟨.sched, ?_⟩
          simp [Sched.switchTo, Sched.log, Sched.setThread]
        · refine .yields hctl ht hturn rfl rfl rfl ⟨d, ?_⟩
          simp [Sched.switchTo, Sched.log, Sched.setThread]
    · obtain rfl := (lib_pure_inj _ _).1 hcall
      refine ⟨started_switchTo ?_ none, .finishes hctl ht hturn rfl rfl rfl ?_⟩
      · exact hbrk
      · simp [Sched.switchTo, Sched.log, Sched.setThread]

end Steps

/-! ## The books of the files -/

/-- What the tables of `main` hold, while files are claimed one after the other. -/
structure Books (env : Env) (names : List (List CChar)) (mem : Mem) : Prop where
  args : ∀ (j : Nat) q, mem.args[j]? = some q → q.filesLength = names.length
  files : mem.files.map CoroFile.name = names
  unclaimed : ∀ (i : Nat) f, mem.files[i]? = some f → f.processed = false →
    claimants mem.writes i = []
  readable : ∀ (i : Nat) f, mem.files[i]? = some f → f.processed = true →
    ∃ vs, readFile env f.name = pure (vs, (vs.length : Int))

section Books

variable {env : Env} {names : List (List CChar)} {mem mem' : Mem} {view : View} {l : Local}
  {q : CoroArgs} {place : Place} {count : Int} {call : BodyCall Local}

theorem Books.files_length (h : Books env names mem) : mem.files.length = names.length := by
  rw [← h.files, List.length_map]

/-- The tables of `main` before it starts a coroutine. -/
theorem tables_books (env : Env) (names : List (List CChar)) (ticks : Nat) :
    Books env names { tables names with ticks := ticks } := by
  have hfresh : ∀ (i : Nat) f, (tables names).files[i]? = some f → f.processed = false := by
    intro i f hf
    simp only [tables, List.getElem?_mapIdx, Option.map_eq_some_iff] at hf
    obtain ⟨name, -, rfl⟩ := hf
    rfl
  refine ⟨?args, ?files, fun _ _ _ _ => rfl, ?readable⟩
  case args => exact fun j q hq => by cases hq
  case files =>
    refine List.ext_getElem? fun i => ?_
    simp [tables, Function.comp_def]
  case readable =>
    intro i f hf hprocessed
    rw [hfresh i f hf] at hprocessed
    cases hprocessed

theorem Books.spawn (h : Books env names mem) :
    Books env names { mem with args := mem.args ++ [newArgs mem.files.length] } := by
  refine ⟨?_, h.files, h.unclaimed, h.readable⟩
  intro j q hq
  rcases Nat.lt_or_ge j mem.args.length with hlt | hge
  · rw [List.getElem?_append_left hlt] at hq
    exact h.args j q hq
  · rw [List.getElem?_append_right hge, List.getElem?_singleton] at hq
    split at hq
    · obtain rfl := Option.some.inj hq
      exact h.files_length
    · cases hq

/-- A turn keeps the books. -/
theorem Books.turn (h : Books env names mem) (hturn : Turn env view l mem mem' q place count call) :
    Books env names mem' := by
  have hargs : ∀ (j : Nat) q', mem'.args[j]? = some q' → q'.filesLength = names.length := by
    intro j q' hq'
    rw [hturn.args] at hq'
    rcases PoolInv.get_set hq' with ⟨-, rfl⟩ | ⟨-, hq'⟩
    · exact h.args l.args q hturn.get
    · exact h.args j q' hq'
  have hkeep : mem'.files = mem.files → (∀ i, claimants mem'.writes i = claimants mem.writes i) →
      Books env names mem' := by
    intro hfiles hclaims
    refine ⟨hargs, hfiles ▸ h.files, ?_, hfiles ▸ h.readable⟩
    intro i f hf hfree
    rw [hclaims]
    exact h.unclaimed i f (hfiles ▸ hf) hfree
  cases hturn.ends with
  | merge _ hfiles hclaims => exact hkeep hfiles hclaims
  | pass _ hfiles hclaims => exact hkeep hfiles hclaims
  | ret _ hfiles hclaims => exact hkeep hfiles hclaims
  | @read _ file f vs hf hfree hread hfiles hclaims =>
      refine ⟨hargs, ?files, ?unclaimed, ?readable⟩
      case files =>
        rw [hfiles, List.map_set, ← h.files]
        refine List.ext_getElem? fun i => ?_
        by_cases hi : file = i
        · subst hi
          rw [List.getElem?_set_self (by rw [List.length_map]; exact PoolInv.lt_of_get hf),
            List.getElem?_map, hf]
          rfl
        · rw [List.getElem?_set_ne hi]
      case unclaimed =>
        intro i g hg hgfree
        rw [hfiles] at hg
        rcases PoolInv.get_set hg with ⟨-, rfl⟩ | ⟨hi, hg⟩
        · cases hgfree
        · rw [hclaims, if_neg (Ne.symm hi), List.append_nil]
          exact h.unclaimed i g hg hgfree
      case readable =>
        intro i g hg hprocessed
        rw [hfiles] at hg
        rcases PoolInv.get_set hg with ⟨-, rfl⟩ | ⟨-, hg⟩
        · exact ⟨vs, hread⟩
        · exact h.readable i g hg hprocessed

end Books

/-! ## The ledger of a run -/

/-- What every run of the program for the files `names` keeps. -/
structure Ledger (env : Env) (names : List (List CChar)) (m : Nat)
    (a : Sched MainState Local Mem) : Prop where
  sched : a.Inv
  started : Started m a
  books : Books env names a.mem
  args_length : a.mem.args.length = a.brk
  ready : ∀ c l n, a.threads c = some ⟨.ready l, n⟩ → c = .node l.args ∧ c ∈ a.members
  /-- A coroutine returns only when all files are claimed. -/
  returned : returns a.trace ≠ [] →
    ∀ (i : Nat) f, a.mem.files[i]? = some f → f.processed = true

section Runs

variable {env : Env} {names : List (List CChar)} {m : Nat} {a a' : Sched MainState Local Mem}

theorem init_ledger (env : Env) (names : List (List CChar)) (m ticks : Nat) :
    Ledger env names m (Sched.init (.start 0) { tables names with ticks := ticks }) :=
  ⟨Sched.inv_init _ _, ⟨Nat.zero_le m, rfl⟩, tables_books env names ticks, rfl,
    fun c l n h => (by cases h), fun h => absurd rfl h⟩

/-- Once a file is claimed it stays claimed. -/
theorem processed_turn {view : View} {l : Local} {mem mem' : Mem} {q : CoroArgs} {place : Place}
    {count : Int} {call : BodyCall Local}
    (hturn : Turn env view l mem mem' q place count call)
    (h : ∀ (i : Nat) f, mem.files[i]? = some f → f.processed = true) :
    ∀ (i : Nat) f, mem'.files[i]? = some f → f.processed = true := by
  cases hturn.ends with
  | merge _ hfiles => rwa [hfiles]
  | pass _ hfiles => rwa [hfiles]
  | ret _ hfiles => rwa [hfiles]
  | read hf hfree _ hfiles =>
      intro i f hi
      rw [hfiles] at hi
      rcases PoolInv.get_set hi with ⟨-, rfl⟩ | ⟨-, hi⟩
      · rfl
      · exact h i f hi

/-- A turn keeps the ledger: its coroutine still has the arguments it was given. -/
theorem Ledger.turn (h : Ledger env names m a) (hsched : a'.Inv) (hstarted : Started m a')
    {c : CoroPtr} {l : Local} {n : Int} {t : Thread Local} {q : CoroArgs} {place : Place} {count : Int}
    {call : BodyCall Local} (ht : a.threads c = some ⟨.ready l, n⟩)
    (hturn : Turn env a.view l a.mem a'.mem q place count call)
    (hthreads : a'.threads = Function.update a.threads c (some t))
    (hargs : ∀ l' k, t = ⟨.ready l', k⟩ → l'.args = l.args) (hmembers : a'.members = a.members)
    (hbrk : a'.brk = a.brk) (hreturned : returns a'.trace ≠ [] →
      ∀ (i : Nat) f, a'.mem.files[i]? = some f → f.processed = true) : Ledger env names m a' := by
  refine ⟨hsched, hstarted, h.books.turn hturn, ?length, ?ready, hreturned⟩
  case length => rw [hturn.args, List.length_set, hbrk, h.args_length]
  case ready =>
    intro d l' k hd
    rw [hthreads] at hd
    rw [hmembers]
    by_cases hdc : d = c
    · rw [hdc, Function.update_self] at hd
      rw [hdc, hargs l' k (Option.some.inj hd)]
      exact h.ready c l n ht
    · rw [Function.update_of_ne hdc] at hd
      exact h.ready d l' k hd

/-- **Every step keeps the ledger.** -/
theorem Ledger.step (h : Ledger env names m a)
    (hgoes : Run.Goes (Sched.step (program env m)) a a') : Ledger env names m a' := by
  obtain ⟨hstarted, hstep⟩ := programStep_of_goes h.started hgoes
  have hsched := Sched.step_inv h.sched hgoes
  cases hstep with
  | spawn hctl hlt hmem hthreads hmembers hbrk htrace =>
      refine ⟨hsched, hstarted, hmem ▸ h.books.spawn, ?length, ?ready, ?returned⟩
      case length =>
        rw [hmem, hbrk, List.length_append, h.args_length]
        rfl
      case ready =>
        intro c l n ht
        rw [hthreads] at ht
        rw [hmembers]
        by_cases hc : c = .node a.brk
        · subst hc
          rw [Function.update_self] at ht
          cases ht
          exact ⟨rfl, List.mem_cons_self ..⟩
        · rw [Function.update_of_ne hc] at ht
          obtain ⟨hnode, hmember⟩ := h.ready c l n ht
          exact ⟨hnode, List.mem_cons_of_mem _ hmember⟩
      case returned =>
        rw [hmem, htrace, returns_append]
        intro hne
        exact h.returned (by simpa [returns] using hne)
  | quiet hctl hmem hbrk hthreads hmembers htrace =>
      obtain ⟨out, hmem⟩ := hmem
      obtain ⟨es, htrace, hes, -⟩ := htrace
      refine ⟨hsched, hstarted, ?books, ?length, ?ready, ?returned⟩
      case books =>
        rw [hmem]
        exact ⟨h.books.args, h.books.files, h.books.unclaimed, h.books.readable⟩
      case length =>
        rw [hmem, hbrk]
        exact h.args_length
      case ready =>
        intro c l n ht
        have hold : a.threads c = some ⟨.ready l, n⟩ := by
          rcases hthreads with hsame | ⟨d, -, hdel⟩
          · rw [← hsame, ht]
          · rw [hdel] at ht
            by_cases hcd : c = d
            · rw [hcd, Function.update_self] at ht
              cases ht
            · rwa [Function.update_of_ne hcd] at ht
        obtain ⟨hnode, hmember⟩ := h.ready c l n hold
        refine ⟨hnode, hmembers c hmember ?_⟩
        rw [Sched.isFinished_eq hold]
        rfl
      case returned =>
        rw [htrace, returns_append, hes, List.append_nil, hmem]
        exact h.returned
  | @yields c l l' n q place count hctl ht hturn hthreads hmembers hbrk htrace =>
      obtain ⟨d, htrace⟩ := htrace
      have hargs : l'.args = l.args := by
        cases hturn.ends <;> rfl
      refine h.turn hsched hstarted ht hturn hthreads ?_ hmembers hbrk ?_
      · rintro _ _ ⟨⟩
        exact hargs
      · rw [htrace, returns_append]
        intro hne
        exact processed_turn hturn (h.returned (by simpa [returns] using hne))
  | @finishes c l n q place count hctl ht hturn hthreads hmembers hbrk htrace =>
      refine h.turn hsched hstarted ht hturn hthreads ?_ hmembers hbrk ?_
      · rintro _ _ ⟨⟩
      · intro _
        cases hturn.ends with
        | ret hall hfiles _ =>
            rw [hfiles]
            intro i f hf
            refine hall i f ?_ hf
            rw [h.books.args l.args q hturn.get, ← h.books.files_length]
            exact PoolInv.lt_of_get hf

/-- Every run keeps the ledger. -/
theorem reaches_ledger (ticks : Nat)
    (h : Run.Reaches (Sched.step (program env m))
      (Sched.init (.start 0) { tables names with ticks := ticks }) a) : Ledger env names m a := by
  induction h with
  | refl => exact init_ledger env names m ticks
  | tail _ hgoes ih => exact ih.step hgoes

/-- When `coro_sched_wait` has returned NULL, all coroutines have been started and none is left. -/
theorem Ledger.at_end (h : Ledger env names m a) (hctl : a.control = .main (.waited none)) :
    a.brk = m ∧ a.members = [] := by
  have hstarted := h.started
  rw [Started, hctl] at hstarted
  exact hstarted

theorem Ledger.not_ready (h : Ledger env names m a) (hctl : a.control = .main (.waited none))
    (c : CoroPtr) (l : Local) (n : Int) : a.threads c ≠ some ⟨.ready l, n⟩ := by
  intro ht
  have hmember := (h.ready c l n ht).2
  rw [(h.at_end hctl).2] at hmember
  cases hmember

end Runs

end SysProg.MergeSort
