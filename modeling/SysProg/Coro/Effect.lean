import SysProg.Coro.Scheduler

set_option autoImplicit false

/-! # The effects of the scheduler's steps

How a step of the scheduler can stop, and which events a step that goes on adds to the trace. -/

namespace SysProg.Libcoro

open LinkedList

variable {K L M : Type}

theorem lib_bind_error {α β : Type} {x : Lib α} {f : α → Lib β} {e : Halt}
    (h : (x >>= f) = throw e) : x = throw e ∨ ∃ a, x = pure a ∧ f a = throw e := by
  cases x with
  | error e' =>
      cases h
      exact Or.inl rfl
  | ok a => exact Or.inr ⟨a, rfl, h⟩

theorem runUser_error {α : Type} {x : C α} {e : Halt} (h : runUser x = throw e) :
    ∃ u, e = .user u := by
  cases x with
  | error u =>
      cases h
      exact ⟨u, rfl⟩
  | ok a => cases h

namespace Sched

/-! ## How a step of the scheduler can stop -/

theorem delete_error {a : Sched K L M} {c : CoroPtr} {e : Halt} (h : a.delete c = throw e) :
    ∃ u, e = .user u := by
  unfold delete at h
  split_ifs at h
  · cases h
  · cases h
    exact ⟨.undefined, rfl⟩

theorem mainCall_error {a : Sched K L M} {call : MainCall K L} {e : Halt}
    (h : a.mainCall call = throw e) : ∃ u, e = .user u := by
  rcases call with (x | ⟨func, x⟩ | ⟨c, x⟩) | k | _
  case call.delete =>
    rcases lib_bind_error h with h | ⟨b, -, h⟩
    · exact delete_error h
    · cases h
  all_goals cases h

theorem bodyCall_error {a : Sched K L M} {c : CoroPtr} {n : Int} {k : Option CoroPtr → K}
    {call : BodyCall L} {e : Halt} (h : a.bodyCall c n k call = throw e) : ∃ u, e = .user u := by
  rcases call with (x | ⟨func, x⟩ | ⟨d, x⟩) | v
  case call.delete =>
    rcases lib_bind_error h with h | ⟨b, -, h⟩
    · exact delete_error h
    · cases h
  all_goals cases h

/-- Only user code stops a run. -/
theorem step_error {P : Program K L M} {a : Sched K L M} (ha : a.Inv) {e : Halt}
    (h : step P a = throw e) : ∃ u, e = .user u := by
  unfold step at h
  cases hctl : a.control with
  | halted => rw [hctl] at h; cases h
  | wait k => rw [hctl] at h; cases h
  | main k =>
      rw [hctl] at h
      rcases lib_bind_error h with h | ⟨⟨call, mem⟩, -, h⟩
      · exact runUser_error h
      · rcases lib_bind_error h with h | ⟨b, -, h⟩
        · exact mainCall_error h
        · cases h
  | body c k =>
      obtain ⟨l, n, ht⟩ := ha.ready hctl
      rw [hctl] at h
      simp only [ht] at h
      rcases lib_bind_error h with h | ⟨⟨call, mem⟩, -, h⟩
      · exact runUser_error h
      · rcases lib_bind_error h with h | ⟨b, -, h⟩
        · exact bodyCall_error h
        · cases h

/-- A step goes on until the main context has returned. -/
theorem step_halt {P : Program K L M} {a : Sched K L M} (h : step P a = pure none) :
    a.control = .halted := by
  unfold step at h
  cases hctl : a.control with
  | halted => rfl
  | wait k => rw [hctl] at h; cases h
  | main k =>
      rw [hctl] at h
      obtain ⟨_, -, h⟩ := lib_bind h
      obtain ⟨_, -, h⟩ := lib_bind h
      cases h
  | body c k =>
      rw [hctl] at h
      simp only at h
      split at h
      · obtain ⟨_, -, h⟩ := lib_bind h
        obtain ⟨_, -, h⟩ := lib_bind h
        cases h
      · cases h

/-! ## Which events a step adds -/

end Sched

/-- How many of the events that a run can have only finitely often a trace has. -/
def progress (tr : List Event) : Nat :=
  calls tr + (deleted tr).length + (returns tr).length + (waited tr).length

@[simp] theorem progress_append (tr tr' : List Event) :
    progress (tr ++ tr') = progress tr + progress tr' := by
  simp only [progress, calls_append, deleted_append, returns_append, waited_append,
    List.length_append]
  omega

/-- How far control is from the body of a coroutine. -/
def Control.distance : Control K L → Nat
  | .main _ => 2
  | .wait _ => 1
  | .body _ _ => 0
  | .halted => 0

namespace Sched

/-- A coroutine that can be switched to. -/
def Live (a : Sched K L M) (d : CoroPtr) : Prop :=
  d = .sched ∨ (d ∈ a.members ∧ a.isFinished d = false)

/-- What the events `es` of a step from `a` to `a'` can be. -/
inductive Effect (a a' : Sched K L M) (es : List Event) : Prop
  /-- One of the events that a run can have only finitely often. -/
  | event (hpos : 0 < progress es) (hnull : none ∉ waits es)
      (hlive : ∀ d, .switch d ∈ es → a.Live d)
  /-- Control comes closer to a body. -/
  | pass (hzero : progress es = 0) (hlt : a'.control.distance < a.control.distance)
      (hnull : none ∉ waits es) (hlive : ∀ d, .switch d ∈ es → a.Live d)
  /-- `coro_sched_wait` returns NULL. -/
  | null (hes : es = [.wait none]) (hmembers : a.members = [])

/-- The step from `a` to `a'` appends events with an effect to the trace. -/
def Extends (a a' : Sched K L M) : Prop := ∃ es, a'.trace = a.trace ++ es ∧ a.Effect a' es

/-- Events without a switch. -/
theorem Extends.of_event {a a' : Sched K L M} {e : Event} (htrace : a'.trace = a.trace ++ [e])
    (hpos : 0 < progress [e]) (hnull : none ∉ waits [e]) (he : ∀ d, e ≠ .switch d) :
    a.Extends a' := by
  refine ⟨[e], htrace, .event hpos hnull ?_⟩
  intro d hd
  exact absurd (List.mem_singleton.1 hd).symm (he d)

/-- An event and a switch. -/
theorem Extends.of_switch {a a' : Sched K L M} {e : Event} {d : CoroPtr}
    (htrace : a'.trace = a.trace ++ [e, .switch d]) (hpos : 0 < progress [e])
    (hnull : none ∉ waits [e]) (he : ∀ d, e ≠ .switch d) (hd : a.Live d) : a.Extends a' := by
  refine ⟨[e, .switch d], htrace, .event hpos ?_ ?_⟩
  · intro hmem
    refine hnull ?_
    rw [show [e, Event.switch d] = [e] ++ [.switch d] from rfl, waits_append] at hmem
    exact (List.mem_append.1 hmem).resolve_right (List.not_mem_nil)
  · intro c hc
    rcases List.mem_cons.1 hc with hc | hc
    · exact absurd hc.symm (he c)
    · obtain rfl := Event.switch.inj (List.mem_singleton.1 hc)
      exact hd

theorem delete_trace {a b : Sched K L M} {c : CoroPtr} (h : a.delete c = pure b) :
    b.trace = a.trace ++ [.delete c] := by
  unfold delete at h
  split_ifs at h
  · obtain rfl := (lib_pure_inj _ _).1 h
    rfl
  · cases h

theorem mainCall_extends {a a' : Sched K L M} {k : K} {call : MainCall K L}
    (hctl : a.control = .main k) (h : a.mainCall call = pure a') : a.Extends a' := by
  have hpass : ∀ ctl : Control K L, ctl.distance < 2 → a.Extends { a with control := ctl } := by
    intro ctl hlt
    refine ⟨[], (List.append_nil _).symm, .pass rfl ?_ (by simp [waits]) (by simp)⟩
    rw [hctl]
    exact hlt
  rcases call with (x | ⟨func, x⟩ | ⟨c, x⟩) | k' | _
  case call.yield =>
    obtain rfl := (lib_pure_inj _ _).1 h
    exact .of_switch rfl Nat.one_pos (by simp [waits]) (by simp) (Or.inl rfl)
  case call.new =>
    obtain rfl := (lib_pure_inj _ _).1 h
    exact .of_event rfl Nat.one_pos (by simp [waits]) (by simp)
  case call.delete =>
    obtain ⟨b, hdel, hb⟩ := lib_bind h
    obtain rfl := (lib_pure_inj _ _).1 hb
    have htrace := delete_trace hdel
    exact .of_event htrace Nat.one_pos (by simp [waits]) (by simp)
  case wait =>
    obtain rfl := (lib_pure_inj _ _).1 h
    exact hpass (.wait k') Nat.one_lt_two
  case done =>
    obtain rfl := (lib_pure_inj _ _).1 h
    exact hpass .halted Nat.two_pos

theorem wait_extends {a : Sched K L M} {k : Option CoroPtr → K} (hctl : a.control = .wait k) :
    a.Extends (a.wait k) := by
  unfold wait
  split
  · next c hfind => exact .of_event rfl Nat.one_pos (by simp [waits]) (by simp)
  · next hfind =>
      rw [List.find?_eq_none] at hfind
      split
      · next hnil => exact ⟨[.wait none], rfl, .null rfl hnil⟩
      · next c rest hcons =>
          refine ⟨[.switch c], rfl, .pass rfl ?_ (by simp [waits]) ?_⟩
          · rw [hctl]
            exact Nat.one_pos
          · intro d hd
            have hc : c ∈ a.members := by simp [hcons]
            obtain rfl := Event.switch.inj (List.mem_singleton.1 hd)
            exact Or.inr ⟨hc, Bool.eq_false_iff.2 (hfind d hc)⟩

theorem bodyCall_extends {a a' : Sched K L M} {c : CoroPtr} {n : Int} {k : Option CoroPtr → K}
    {call : BodyCall L} (hall : ∀ d ∈ a.members, a.isFinished d = false)
    (h : a.bodyCall c n k call = pure a') : a.Extends a' := by
  rcases call with (x | ⟨func, x⟩ | ⟨d, x⟩) | v
  case call.yield =>
    obtain rfl := (lib_pure_inj _ _).1 h
    refine .of_switch (e := .yield c) (d := (succ c a.members).getD .sched) ?_ Nat.one_pos
      (by simp [waits]) (by simp) ?_
    · cases hsucc : succ c a.members <;> simp [switchTo, log, setThread]
    · cases hsucc : succ c a.members with
      | none => exact Or.inl rfl
      | some e => exact Or.inr ⟨succ_mem hsucc, hall e (succ_mem hsucc)⟩
  case call.new =>
    obtain rfl := (lib_pure_inj _ _).1 h
    exact .of_event rfl Nat.one_pos (by simp [waits]) (by simp)
  case call.delete =>
    obtain ⟨b, hdel, hb⟩ := lib_bind h
    obtain rfl := (lib_pure_inj _ _).1 hb
    have htrace := delete_trace hdel
    exact .of_event htrace Nat.one_pos (by simp [waits]) (by simp)
  case ret =>
    obtain rfl := (lib_pure_inj _ _).1 h
    exact .of_switch (e := .ret c v) (d := .sched) (by simp [switchTo, log, setThread]) Nat.one_pos
      (by simp [waits]) (by simp) (Or.inl rfl)

/-- What user code writes to its memory has no effect here. -/
theorem Extends.of_mem {a a' : Sched K L M} {mem : M}
    (h : Extends { a with mem := mem } a') : a.Extends a' := by
  obtain ⟨es, htrace, heffect⟩ := h
  refine ⟨es, htrace, ?_⟩
  cases heffect with
  | event hpos hnull hlive => exact .event hpos hnull hlive
  | pass hzero hlt hnull hlive => exact .pass hzero hlt hnull hlive
  | null hes hmembers => exact .null hes hmembers

/-- **Everything a step adds to the trace.** -/
theorem step_extends {P : Program K L M} {a a' : Sched K L M} (ha : a.Inv)
    (hstep : step P a = pure (some a')) : a.Extends a' := by
  rcases step_cases hstep with ⟨k, hctl, rfl⟩ | ⟨k, call, mem, hctl, -, hrun⟩ |
    ⟨c, k, l, n, call, mem, hctl, -, -, hrun⟩
  · exact wait_extends hctl
  · exact (mainCall_extends (a := { a with mem := mem }) hctl hrun).of_mem
  · exact (bodyCall_extends (a := { a with mem := mem }) (ha.running c k hctl).2 hrun).of_mem

theorem Effect.live {a a' : Sched K L M} {es : List Event} (h : a.Effect a' es) {d : CoroPtr}
    (hd : .switch d ∈ es) : a.Live d := by
  cases h with
  | event _ _ hlive => exact hlive d hd
  | pass _ _ _ hlive => exact hlive d hd
  | null hes _ =>
      subst hes
      simp at hd

/-! ## The memory of user code -/

theorem delete_mem {a b : Sched K L M} {c : CoroPtr} (h : a.delete c = pure b) : b.mem = a.mem := by
  unfold delete at h
  split_ifs at h
  · obtain rfl := (lib_pure_inj _ _).1 h
    rfl
  · cases h

theorem switchTo_mem (a : Sched K L M) (k : Option CoroPtr → K) (d : Option CoroPtr) :
    (a.switchTo k d).mem = a.mem := by
  cases d <;> rfl

theorem wait_mem (a : Sched K L M) (k : Option CoroPtr → K) : (a.wait k).mem = a.mem := by
  unfold wait
  split
  · rfl
  · split <;> rfl

theorem mainCall_mem {a a' : Sched K L M} {call : MainCall K L} (h : a.mainCall call = pure a') :
    a'.mem = a.mem := by
  rcases call with (x | ⟨func, x⟩ | ⟨d, x⟩) | k | _
  case call.delete =>
    obtain ⟨b, hdel, hb⟩ := lib_bind h
    obtain rfl := (lib_pure_inj _ _).1 hb
    exact (delete_mem hdel : b.mem = a.mem)
  all_goals
    obtain rfl := (lib_pure_inj _ _).1 h
    rfl

theorem bodyCall_mem {a a' : Sched K L M} {c : CoroPtr} {n : Int} {k : Option CoroPtr → K}
    {call : BodyCall L} (h : a.bodyCall c n k call = pure a') : a'.mem = a.mem := by
  rcases call with (x | ⟨func, x⟩ | ⟨d, x⟩) | v
  case call.delete =>
    obtain ⟨b, hdel, hb⟩ := lib_bind h
    obtain rfl := (lib_pure_inj _ _).1 hb
    exact (delete_mem hdel : b.mem = a.mem)
  case call.new =>
    obtain rfl := (lib_pure_inj _ _).1 h
    rfl
  all_goals
    obtain rfl := (lib_pure_inj _ _).1 h
    exact switchTo_mem ..

/-- What user code keeps in its memory holds in every run. -/
theorem mem_invariant {P : Program K L M} {a a' : Sched K L M} (inv : M → Prop)
    (hmain : ∀ {view k mem call mem'}, inv mem → P.main view k mem = pure (call, mem') → inv mem')
    (hbody : ∀ {view l mem call mem'}, inv mem → P.body view l mem = pure (call, mem') → inv mem')
    (h₀ : inv a.mem) (h : Run.Reaches (step P) a a') : inv a'.mem := by
  induction h with
  | refl => exact h₀
  | tail _ hgoes ih =>
      rcases step_cases hgoes with ⟨k, -, rfl⟩ | ⟨k, call, mem, -, hrun, hcall⟩ |
        ⟨c, k, l, n, call, mem, -, -, hrun, hcall⟩
      · rwa [wait_mem]
      · rw [mainCall_mem hcall]
        exact hmain ih hrun
      · rw [bodyCall_mem hcall]
        exact hbody ih hrun

end Sched

end SysProg.Libcoro
