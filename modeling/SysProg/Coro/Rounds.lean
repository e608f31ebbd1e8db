import Mathlib.Data.List.Induction
import SysProg.Coro.Safety

set_option autoImplicit false

/-! # No coroutine starves

A round is one switch of `coro_sched_wait` to the head of the list and what follows until control is
back with the scheduler. It resumes the members in the order of the list, and where one of them
returns it is cut short: those behind lose their turn. With at most one return in a round, a coroutine
that was there from the first round on loses at most as many turns as coroutines have returned. -/

namespace SysProg.Libcoro

open LinkedList

/-! ## Rounds in a trace -/

/-- A switch to a coroutine goes on with a round; a switch to the scheduler ends it. The main
    context's own `coro_yield` switches to the scheduler outside of any round. -/
def roundStep (r : List (List CoroPtr) × List CoroPtr) : Event → List (List CoroPtr) × List CoroPtr
  | .switch .sched => if r.2 = [] then r else (r.1 ++ [r.2], [])
  | .switch c => (r.1, r.2 ++ [c])
  | _ => r

/-- The rounds that are over, each as the coroutines resumed in it, and the one that is going on. -/
def rounds (tr : List Event) : List (List CoroPtr) × List CoroPtr := tr.foldl roundStep ([], [])

/-- How often `c` has been resumed. -/
def resumed (c : CoroPtr) (tr : List Event) : Nat := tr.count (.switch c)

/-- Whether an event happens only once `coro_sched_wait` has been called. -/
def Event.inWait : Event → Bool
  | .switch (.node _) => true
  | .wait _ => true
  | _ => false

/-- No coroutine is created after the first call of `coro_sched_wait`. -/
def CreatedFirst (tr : List Event) : Prop :=
  tr.Pairwise fun e e' => e.inWait = true → ∀ c, e' ≠ .new c

@[simp] theorem roundStep_node (r : List (List CoroPtr) × List CoroPtr) (n : Nat) :
    roundStep r (.switch (.node n)) = (r.1, r.2 ++ [.node n]) := rfl

theorem rounds_concat (tr : List Event) (e : Event) :
    rounds (tr ++ [e]) = roundStep (rounds tr) e := by
  rw [rounds, List.foldl_append]
  rfl

theorem rounds_sched {tr : List Event} (h : (rounds tr).2 ≠ []) :
    rounds (tr ++ [.switch .sched]) = ((rounds tr).1 ++ [(rounds tr).2], []) := by
  rw [rounds_concat]
  exact if_neg h

@[simp] theorem resumed_append (c : CoroPtr) (tr tr' : List Event) :
    resumed c (tr ++ tr') = resumed c tr + resumed c tr' := List.count_append

theorem CreatedFirst.of_append {tr es : List Event} (h : CreatedFirst (tr ++ es)) :
    CreatedFirst tr := (List.pairwise_append.1 h).1

/-- Before a coroutine is created nothing has been resumed. -/
theorem CreatedFirst.not_inWait {tr : List Event} {c : CoroPtr} (h : CreatedFirst (tr ++ [.new c])) :
    ∀ e ∈ tr, e.inWait = false := by
  intro e he
  have hall := (List.pairwise_append.1 h).2.2 e he _ (List.mem_singleton.2 rfl)
  cases hin : e.inWait with
  | false => rfl
  | true => exact absurd rfl (hall hin c)

theorem rounds_eq_nil {tr : List Event} (h : ∀ e ∈ tr, e.inWait = false) : rounds tr = ([], []) := by
  induction tr using List.reverseRecOn with
  | nil => rfl
  | append_singleton tr e ih =>
      rw [rounds_concat, ih fun e he => h e (List.mem_append_left _ he)]
      have he := h e (List.mem_append_right _ (List.mem_singleton.2 rfl))
      rcases e with c | c | c | ⟨c, v⟩ | r | c
      case switch =>
        cases c with
        | sched => rfl
        | node n => cases he
      all_goals rfl

theorem resumed_eq_zero {tr : List Event} (h : ∀ e ∈ tr, e.inWait = false) (n : Nat) :
    resumed (.node n) tr = 0 := by
  refine List.count_eq_zero.2 fun hmem => ?_
  have hin := h _ hmem
  cases hin

/-! ## The turns of the members -/

/-- The turns of the members: in every round over and in the one going on each member has had one,
    but for those that a return has cost it. -/
structure Fair (members : List CoroPtr) (tr : List Event) : Prop where
  nodup : ∀ r ∈ (rounds tr).1, r.Nodup
  least : ∀ c ∈ members, c ∉ (returns tr).map Prod.fst →
    (rounds tr).1.length + (rounds tr).2.count c ≤ resumed c tr + (returns tr).length
  most : ∀ c ∈ members, c ∉ (returns tr).map Prod.fst →
    resumed c tr ≤ (rounds tr).1.length + (rounds tr).2.count c

namespace Fair

variable {members members' : List CoroPtr} {tr : List Event}

theorem mono (h : Fair members tr) (hsub : ∀ c ∈ members', c ∈ members) : Fair members' tr :=
  ⟨h.nodup, fun c hc => h.least c (hsub c hc), fun c hc => h.most c (hsub c hc)⟩

/-- An event that is no switch and no return. -/
theorem log (h : Fair members tr) {e : Event} (he : roundStep (rounds tr) e = rounds tr)
    (hreturns : returns [e] = []) (hresumed : ∀ c ∈ members, e ≠ .switch c) :
    rounds (tr ++ [e]) = rounds tr ∧ Fair members (tr ++ [e]) := by
  have hrounds : rounds (tr ++ [e]) = rounds tr := (rounds_concat _ _).trans he
  have hret : returns (tr ++ [e]) = returns tr := by
    rw [returns_append, hreturns, List.append_nil]
  have hzero : ∀ c ∈ members, resumed c (tr ++ [e]) = resumed c tr := by
    intro c hc
    have hone : resumed c [e] = 0 := List.count_eq_zero.2 fun hmem =>
      hresumed c hc (List.mem_singleton.1 hmem).symm
    rw [resumed_append, hone, Nat.add_zero]
  refine ⟨hrounds, by rw [hrounds]; exact h.nodup, ?_, ?_⟩
  · intro c hc hnot
    rw [hret] at hnot
    rw [hrounds, hret, hzero c hc]
    exact h.least c hc hnot
  · intro c hc hnot
    rw [hret] at hnot
    rw [hrounds, hzero c hc]
    exact h.most c hc hnot

/-- A member gets its turn. -/
theorem resume (h : Fair members tr) (n : Nat) : Fair members (tr ++ [.switch (.node n)]) := by
  have hrounds : rounds (tr ++ [.switch (.node n)]) = ((rounds tr).1, (rounds tr).2 ++ [.node n]) :=
    rounds_concat tr _
  have hreturns : returns (tr ++ [.switch (.node n)]) = returns tr := by simp [returns]
  have hcount : ∀ c, resumed c [.switch (.node n)] = List.count c [.node n] := by
    intro c
    simp [resumed, List.count_singleton]
  refine ⟨by rw [hrounds]; exact h.nodup, ?_, ?_⟩
  · intro c hc hnot
    rw [hreturns] at hnot
    have hold := h.least c hc hnot
    simp only [hrounds, hreturns, resumed_append, hcount, List.count_append]
    omega
  · intro c hc hnot
    rw [hreturns] at hnot
    have hold := h.most c hc hnot
    simp only [hrounds, resumed_append, hcount, List.count_append]
    omega

/-- The round is over. A member without a turn in it must have turns to spare. -/
theorem endRound (h : Fair members tr) (hsched : .sched ∉ members) (hcur : (rounds tr).2 ≠ [])
    (hnodup : (rounds tr).2.Nodup)
    (hspare : ∀ c ∈ members, c ∉ (rounds tr).2 → c ∉ (returns tr).map Prod.fst →
      (rounds tr).1.length + 1 ≤ resumed c tr + (returns tr).length) :
    Fair members (tr ++ [.switch .sched]) := by
  have hrounds := rounds_sched hcur
  have hreturns : returns (tr ++ [.switch .sched]) = returns tr := by simp [returns]
  have hresumed : ∀ c ∈ members, resumed c [.switch .sched] = 0 := by
    intro c hc
    refine List.count_eq_zero.2 fun hmem => hsched ?_
    rw [← Event.switch.inj (List.mem_singleton.1 hmem)]
    exact hc
  refine ⟨?_, ?_, ?_⟩
  · rw [hrounds]
    exact List.forall_mem_append.2 ⟨h.nodup, List.forall_mem_singleton.2 hnodup⟩
  · intro c hc hnot
    rw [hreturns] at hnot
    simp only [hrounds, hreturns, resumed_append, hresumed c hc, List.length_append,
      List.length_singleton, List.count_nil]
    by_cases hturn : c ∈ (rounds tr).2
    · have hold := h.least c hc hnot
      rw [List.count_eq_one_of_mem hnodup hturn] at hold
      exact hold
    · exact hspare c hc hturn hnot
  · intro c hc hnot
    rw [hreturns] at hnot
    have hold := h.most c hc hnot
    have hone := List.nodup_iff_count_le_one.1 hnodup c
    simp only [hrounds, resumed_append, hresumed c hc, List.length_append, List.length_singleton,
      List.count_nil]
    omega

/-- A return gives every other member a turn to spare. -/
theorem ret (h : Fair members tr) (c : CoroPtr) (v : Int) :
    Fair members (tr ++ [.ret c v]) ∧
    ∀ d ∈ members, d ∉ (returns (tr ++ [.ret c v])).map Prod.fst →
      (rounds (tr ++ [.ret c v])).1.length + 1
        ≤ resumed d (tr ++ [.ret c v]) + (returns (tr ++ [.ret c v])).length := by
  have hrounds : rounds (tr ++ [.ret c v]) = rounds tr := rounds_concat tr _
  have hreturns : returns (tr ++ [.ret c v]) = returns tr ++ [(c, v)] := by simp [returns]
  have hresumed : ∀ d, resumed d [.ret c v] = 0 := fun d => by simp [resumed]
  have hold : ∀ d, d ∉ (returns tr ++ [(c, v)]).map Prod.fst → d ∉ (returns tr).map Prod.fst := by
    intro d hd hmem
    rw [List.map_append] at hd
    exact hd (List.mem_append_left _ hmem)
  simp only [hrounds, hreturns, resumed_append, hresumed, List.length_append,
    List.length_singleton]
  refine ⟨⟨by rw [hrounds]; exact h.nodup, ?_, ?_⟩, ?_⟩
  · intro d hd hnot
    rw [hreturns] at hnot
    have hleast := h.least d hd (hold d hnot)
    simp only [hrounds, hreturns, resumed_append, hresumed, List.length_append,
      List.length_singleton]
    omega
  · intro d hd hnot
    rw [hreturns] at hnot
    rw [hrounds, resumed_append, hresumed, Nat.add_zero]
    exact h.most d hd (hold d hnot)
  · intro d hd hnot
    have hleast := h.least d hd (hold d hnot)
    omega

/-- Before the first round everything is fair. -/
theorem of_new {c : CoroPtr} (hfirst : CreatedFirst (tr ++ [.new c])) (hsched : .sched ∉ members) :
    Fair members (tr ++ [.new c]) := by
  have hnone := hfirst.not_inWait
  have hrounds : rounds (tr ++ [.new c]) = ([], []) := by
    rw [rounds_concat, rounds_eq_nil hnone]
    rfl
  refine ⟨by simp [hrounds], fun d _ _ => by simp [hrounds], fun d hd _ => ?_⟩
  cases d with
  | sched => exact absurd hd hsched
  | node n =>
      rw [resumed_append, resumed_eq_zero hnone]
      simp [resumed]

end Fair

/-! ## Steps -/

namespace Sched

variable {K L M : Type}

/-- What is known of the round that is going on: while a body runs, it is the last one resumed of
    those at the head of the list. -/
def InRound (a : Sched K L M) : Prop :=
  match a.control with
  | .body c _ => ∃ pre rest, (rounds a.trace).2 = pre ++ [c] ∧ a.members = pre ++ c :: rest
  | _ => (rounds a.trace).2 = []

theorem Inv.sched_not_mem {a : Sched K L M} (ha : a.Inv) : .sched ∉ a.members := by
  intro hmem
  obtain ⟨n, hn, -⟩ := ha.book.created_node (ha.book.member_created hmem)
  cases hn

theorem InRound.nodup {a : Sched K L M} (h : a.InRound) (ha : a.Inv) :
    (rounds a.trace).2.Nodup := by
  rw [InRound] at h
  split at h
  · next c k hctl =>
      obtain ⟨pre, rest, hcur, hmembers⟩ := h
      have hnodup : (pre ++ [c] ++ rest).Nodup := by
        rw [List.append_assoc]
        exact hmembers ▸ (List.nodup_append.1 ha.book.nodup).2.1
      rw [hcur]
      exact (List.nodup_append.1 hnodup).1
  · rw [h]
    exact List.nodup_nil

theorem wait_fair {a : Sched K L M} (ha : a.Inv) {k : Option CoroPtr → K}
    (hctl : a.control = .wait k) (h : Fair a.members a.trace) (hround : a.InRound) :
    Fair (a.wait k).members (a.wait k).trace ∧ (a.wait k).InRound := by
  have hcur : (rounds a.trace).2 = [] := by
    rw [InRound, hctl] at hround
    exact hround
  unfold wait
  split
  · next c hfind =>
      obtain ⟨hrounds, hfair⟩ := h.log (e := .wait (some (c, true, a.retOf c))) rfl rfl (by simp)
      refine ⟨hfair.mono fun d hd => List.mem_of_mem_erase hd, ?_⟩
      show (rounds (a.trace ++ _)).2 = []
      rw [hrounds, hcur]
  · split
    · next hnil =>
        obtain ⟨hrounds, hfair⟩ := h.log (e := .wait none) rfl rfl (by simp)
        refine ⟨hfair, ?_⟩
        show (rounds (a.trace ++ _)).2 = []
        rw [hrounds, hcur]
    · next c rest hcons =>
        have hc : c ∈ a.members := by simp [hcons]
        obtain ⟨n, rfl, -⟩ := ha.book.created_node (ha.book.member_created hc)
        refine ⟨h.resume n, [], rest, ?_, hcons⟩
        show (rounds (a.trace ++ _)).2 = _
        rw [rounds_concat, roundStep_node, hcur]

theorem mainCall_fair {a a' : Sched K L M} {k : K} {call : MainCall K L} (ha : a.Inv)
    (hctl : a.control = .main k) (h : Fair a.members a.trace) (hround : a.InRound)
    (hrun : a.mainCall call = pure a') (hfirst : CreatedFirst a'.trace) :
    Fair a'.members a'.trace ∧ a'.InRound := by
  have hcur : (rounds a.trace).2 = [] := by
    rw [InRound, hctl] at hround
    exact hround
  have hinv := mainCall_inv ha.book hrun
  rcases call with (x | ⟨func, x⟩ | ⟨c, x⟩) | k' | _
  case call.yield =>
    obtain rfl := (lib_pure_inj _ _).1 hrun
    obtain ⟨hrounds, hfair⟩ := h.log (e := .yield .sched) rfl rfl (by simp)
    obtain ⟨hrounds', hfair'⟩ := hfair.log (e := .switch .sched)
      (by rw [hrounds, roundStep, if_pos hcur]) rfl
      (fun d hd he => ha.sched_not_mem (Event.switch.inj he ▸ hd))
    rw [hrounds] at hrounds'
    have hsplit : a.trace ++ [.yield .sched, .switch .sched]
        = (a.trace ++ [.yield .sched]) ++ [.switch .sched] := by simp
    refine ⟨?_, ?_⟩
    · show Fair a.members (a.trace ++ _)
      rw [hsplit]
      exact hfair'
    · show (rounds (a.trace ++ _)).2 = []
      rw [hsplit, hrounds', hcur]
  case call.new =>
    obtain rfl := (lib_pure_inj _ _).1 hrun
    refine ⟨Fair.of_new hfirst hinv.sched_not_mem, ?_⟩
    show (rounds (a.trace ++ _)).2 = []
    rw [rounds_concat]
    exact hcur
  case call.delete =>
    obtain ⟨b, hdel, hb⟩ := lib_bind hrun
    obtain rfl := (lib_pure_inj _ _).1 hb
    obtain ⟨-, hmembers, -⟩ := delete_book ha.book hdel
    obtain ⟨hrounds, hfair⟩ := h.log (e := .delete c) rfl rfl (by simp)
    have htrace := delete_trace hdel
    refine ⟨?_, ?_⟩
    · show Fair b.members b.trace
      rw [hmembers, htrace]
      exact hfair
    · show (rounds b.trace).2 = []
      rw [htrace, hrounds, hcur]
  case wait =>
    obtain rfl := (lib_pure_inj _ _).1 hrun
    exact ⟨h, hcur⟩
  case done =>
    obtain rfl := (lib_pure_inj _ _).1 hrun
    exact ⟨h, hcur⟩

theorem bodyCall_fair {a a' : Sched K L M} {c : CoroPtr} {n : Int} {k : Option CoroPtr → K}
    {call : BodyCall L} (ha : a.Inv) (hctl : a.control = .body c k) (h : Fair a.members a.trace)
    (hround : a.InRound) (hrun : a.bodyCall c n k call = pure a') (hfirst : CreatedFirst a'.trace) :
    Fair a'.members a'.trace ∧ a'.InRound := by
  have hturns := hround.nodup ha
  rw [InRound, hctl] at hround
  obtain ⟨pre, rest, hcur, hmembers⟩ := hround
  have hc : c ∉ pre := fun hmem => (List.nodup_append.1 (hcur ▸ hturns)).2.2 c hmem c
    (List.mem_singleton.2 rfl) rfl
  have hne : (rounds a.trace).2 ≠ [] := by simp [hcur]
  rcases call with (x | ⟨func, x⟩ | ⟨d, x⟩) | v
  case call.yield =>
    obtain rfl := (lib_pure_inj _ _).1 hrun
    obtain ⟨hrounds, hfair⟩ := h.log (e := .yield c) rfl rfl (by simp)
    have hsucc : succ c a.members = rest.head? := by rw [hmembers, succ_append hc]
    rw [hsucc]
    cases rest with
    | nil =>
        -- every member has had its turn
        refine ⟨hfair.endRound ha.sched_not_mem (by rw [hrounds]; exact hne)
          (by rw [hrounds]; exact hturns) ?_, ?_⟩
        · intro d hd hnot
          rw [hrounds, hcur, ← hmembers] at hnot
          exact absurd hd hnot
        · show (rounds (a.trace ++ [.yield c] ++ [.switch .sched])).2 = []
          rw [rounds_sched (by rw [hrounds]; exact hne)]
    | cons d rest =>
        have hd : d ∈ a.members := by simp [hmembers]
        obtain ⟨i, rfl, -⟩ := ha.book.created_node (ha.book.member_created hd)
        refine ⟨hfair.resume i, pre ++ [c], rest, ?_, by simp [switchTo, log, setThread, hmembers]⟩
        show (rounds (a.trace ++ [.yield c] ++ [.switch (.node i)])).2 = _
        rw [rounds_concat, roundStep_node, hrounds, hcur]
  case call.new =>
    obtain rfl := (lib_pure_inj _ _).1 hrun
    have hnone := rounds_eq_nil (CreatedFirst.not_inWait hfirst)
    rw [hnone] at hne
    exact absurd rfl hne
  case call.delete =>
    obtain ⟨b, hdel, hb⟩ := lib_bind hrun
    obtain rfl := (lib_pure_inj _ _).1 hb
    obtain ⟨-, hmembers', hcontrol, -⟩ := delete_book ha.book hdel
    obtain ⟨hrounds, hfair⟩ := h.log (e := .delete d) rfl rfl (by simp)
    have htrace := delete_trace hdel
    refine ⟨?_, ?_⟩
    · show Fair b.members b.trace
      rw [hmembers', htrace]
      exact hfair
    · have hctl' : (b.setThread c ⟨.ready x, n⟩).control = .body c k := hcontrol.trans hctl
      rw [InRound, hctl']
      refine ⟨pre, rest, ?_, hmembers'.trans hmembers⟩
      show (rounds b.trace).2 = _
      rw [htrace, hrounds, hcur]
  case ret =>
    obtain rfl := (lib_pure_inj _ _).1 hrun
    obtain ⟨hfair, hspare⟩ := h.ret c v
    have hrounds : rounds (a.trace ++ [.ret c v]) = rounds a.trace := rounds_concat _ _
    refine ⟨hfair.endRound ha.sched_not_mem (by rw [hrounds]; exact hne)
      (by rw [hrounds]; exact hturns) (fun d hd _ hnot => hspare d hd hnot), ?_⟩
    show (rounds (a.trace ++ [.ret c v] ++ [.switch .sched])).2 = []
    rw [rounds_sched (by rw [hrounds]; exact hne)]

/-- **A step keeps the turns fair.** -/
theorem step_fair {P : Program K L M} {a a' : Sched K L M} (ha : a.Inv)
    (h : Fair a.members a.trace) (hround : a.InRound) (hstep : step P a = pure (some a'))
    (hfirst : CreatedFirst a'.trace) : Fair a'.members a'.trace ∧ a'.InRound := by
  rcases step_cases hstep with ⟨k, hctl, rfl⟩ | ⟨k, call, mem, hctl, -, hrun⟩ |
    ⟨c, k, l, n, call, mem, hctl, -, -, hrun⟩
  · exact wait_fair ha hctl h hround
  · exact mainCall_fair (a := { a with mem := mem }) ⟨ha.book, ha.running⟩ hctl h hround hrun hfirst
  · exact bodyCall_fair (a := { a with mem := mem }) ⟨ha.book, ha.running⟩ hctl h hround hrun hfirst

theorem reaches_fair {P : Program K L M} {k : K} {mem : M} {a : Sched K L M}
    (h : Run.Reaches (step P) (init k mem) a) :
    a.Inv ∧ (CreatedFirst a.trace → Fair a.members a.trace ∧ a.InRound) := by
  induction h with
  | refl =>
      refine ⟨inv_init k mem, fun _ => ⟨⟨?_, ?_, ?_⟩, rfl⟩⟩
      · exact List.forall_mem_nil _
      · exact fun c hc => by cases hc
      · exact fun c hc => by cases hc
  | tail _ hgoes ih =>
      obtain ⟨ha, hfair⟩ := ih
      refine ⟨step_inv ha hgoes, fun hfirst => ?_⟩
      obtain ⟨es, htrace, -⟩ := step_extends ha hgoes
      obtain ⟨h, hround⟩ := hfair (htrace ▸ hfirst).of_append
      exact step_fair ha h hround hgoes hfirst

/-- What `coro_sched_wait` has returned has returned itself. -/
theorem Inv.waited_returned {a : Sched K L M} (ha : a.Inv) {c : CoroPtr} (hc : c ∈ waited a.trace) :
    c ∈ (returns a.trace).map Prod.fst := by
  obtain ⟨e, he, hsome⟩ := List.mem_filterMap.1 hc
  rcases e with d | d | d | ⟨d, v⟩ | (_ | ⟨d, f, v⟩) | d
  case wait.some =>
    obtain rfl := Option.some.inj hsome
    have hwaits : some (d, f, v) ∈ waits a.trace := List.mem_filterMap.2 ⟨_, he, rfl⟩
    exact List.mem_map.2 ⟨_, (ha.book.waits_ret d f v hwaits).2, rfl⟩
  all_goals cases hsome

end Sched

section Library

variable {K L M : Type}

/-- **No coroutine starves.** When all coroutines are created before the first `coro_sched_wait`, then
    after `R` rounds in which `F` coroutines have returned every coroutine that has not returned has
    been resumed at least `R - F` and at most `R` times, and in no round is one resumed twice. -/
theorem no_starvation (P : Program K L M) (k : K) (mem : M) (s : State K L M)
    (h : Reaches P (init k mem) s) (hfirst : CreatedFirst s.trace) :
    (∀ r ∈ (rounds s.trace).1, r.Nodup) ∧ (rounds s.trace).2.Nodup ∧
    ((∀ c l, s.point ≠ .user (.body c l)) → (rounds s.trace).2 = []) ∧
    ∀ c ∈ created s.trace, c ∉ (returns s.trace).map Prod.fst →
      (rounds s.trace).1.length ≤ resumed c s.trace + (returns s.trace).length ∧
      resumed c s.trace ≤ (rounds s.trace).1.length + (rounds s.trace).2.count c := by
  obtain ⟨a, hreach, hrep, ha⟩ := h.sched
  rw [hrep.trace] at hfirst ⊢
  obtain ⟨hfair, hround⟩ := (Sched.reaches_fair hreach).2 hfirst
  refine ⟨hfair.nodup, ?_, ?_, ?_⟩
  · exact hround.nodup ha
  · intro hpoint
    have hrep' := hrep.point
    rw [PointRep] at hrep'
    rw [Sched.InRound] at hround
    cases hctl : a.control with
    | body c k =>
        rw [hctl] at hrep'
        obtain ⟨-, ⟨l, n, -, hp⟩, -⟩ := hrep'
        exact absurd hp (hpoint c l)
    | main k =>
        rw [hctl] at hround
        exact hround
    | wait k =>
        rw [hctl] at hround
        exact hround
    | halted =>
        rw [hctl] at hround
        exact hround
  · intro c hc hnot
    have hmem : c ∈ a.members := by
      have hor := List.mem_append.1 (ha.book.perm.symm.subset hc)
      exact hor.resolve_left fun hw => hnot (ha.waited_returned hw)
    have hleast := hfair.least c hmem hnot
    exact ⟨by omega, hfair.most c hmem hnot⟩

end Library

/-- Two rounds, the second cut short by the return of the second coroutine: the first one is a resume
    behind. -/
theorem no_starvation_twoWorkers :
    ∃ s, Run.after (step twoWorkers) 8 (init .first ()) = s ∧ CreatedFirst s.trace ∧
      rounds s.trace = ([[.node 1, .node 0], [.node 1]], []) ∧
      returns s.trace = [(.node 1, 5)] ∧ resumed (.node 0) s.trace = 1 ∧
      (rounds s.trace).1.length ≤ resumed (.node 0) s.trace + (returns s.trace).length ∧
      resumed (.node 0) s.trace
        ≤ (rounds s.trace).1.length + (rounds s.trace).2.count (.node 0) := by
  have htrace : (Run.after (step twoWorkers) 8 (init .first ())).trace
      = [.new (.node 0), .new (.node 1), .switch (.node 1), .yield (.node 1), .switch (.node 0),
          .yield (.node 0), .switch .sched, .switch (.node 1), .ret (.node 1) 5,
          .switch .sched] := rfl
  have hfirst : CreatedFirst (Run.after (step twoWorkers) 8 (init .first ())).trace := by
    rw [htrace, CreatedFirst]
    simp [Event.inWait]
  obtain ⟨-, -, -, hfair⟩ := no_starvation twoWorkers .first () _ (Run.after_reaches ..) hfirst
  refine ⟨_, rfl, hfirst, rfl, rfl, rfl, ?_⟩
  exact hfair (.node 0) (by rw [htrace]; decide) (by rw [htrace]; decide)

end SysProg.Libcoro
