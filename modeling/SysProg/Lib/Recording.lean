import Mathlib.Logic.Basic

set_option autoImplicit false

/-! # Computations that record what they do

A computation that may stop with an error and makes entries in a log on the way. The entries made
before an error are kept. `Keeps` is the triple of this language: every entry meets `ok`, and every
result meets `post`. -/

namespace SysProg

/-- A computation with errors `E` that records entries `H`. -/
structure Recording (E H α : Type) where
  result : Except E α
  log : List H

namespace Recording

variable {E H α β : Type}

instance : Monad (Recording E H) where
  pure a := ⟨.ok a, []⟩
  bind x f :=
    match x.result with
    | .ok a => ⟨(f a).result, x.log ++ (f a).log⟩
    | .error e => ⟨.error e, x.log⟩

/-- A computation that records nothing. -/
instance : MonadLift (Except E) (Recording E H) where
  monadLift x := ⟨x, []⟩

/-- Making an entry. -/
def record (h : H) : Recording E H Unit := ⟨.ok (), [h]⟩

/-! ## Results -/

@[simp] theorem result_lift (x : Except E α) : (liftM x : Recording E H α).result = x := rfl

@[simp] theorem result_bind (x : Recording E H α) (f : α → Recording E H β) :
    (x >>= f).result = x.result >>= fun a => (f a).result := by
  obtain ⟨result, log⟩ := x
  cases result with
  | ok a => rfl
  | error e => rfl

@[simp] theorem lift_ok_bind (a : α) (f : α → Recording E H β) :
    ((liftM (Except.ok a : Except E α) : Recording E H α) >>= f) = f a := rfl

/-- The entries of the first half are entries of the whole. -/
theorem mem_log_bind {x : Recording E H α} {f : α → Recording E H β} {h : H} (hx : h ∈ x.log) :
    h ∈ (x >>= f).log := by
  obtain ⟨result, log⟩ := x
  cases result with
  | ok a => exact List.mem_append_left _ hx
  | error e => exact hx

/-! ## Triples -/

/-- All entries are `ok`, and the result, if there is one, meets `post`. -/
structure Keeps (ok : H → Prop) (post : α → Prop) (x : Recording E H α) : Prop where
  log : ∀ h ∈ x.log, ok h
  result : ∀ a, x.result = .ok a → post a

variable {ok : H → Prop} {P : α → Prop} {Q : β → Prop}

theorem Keeps.pure {a : α} (h : P a) : Keeps ok P (Pure.pure a : Recording E H α) := by
  refine ⟨fun e he => absurd he List.not_mem_nil, fun b hb => ?_⟩
  cases hb
  exact h

theorem Keeps.lift {x : Except E α} (h : ∀ a, x = .ok a → P a) :
    Keeps ok P (liftM x : Recording E H α) :=
  ⟨fun _ he => absurd he List.not_mem_nil, h⟩

theorem Keeps.record {h : H} (hok : ok h) :
    Keeps ok (fun _ => True) (record h : Recording E H Unit) :=
  ⟨fun e he => by rw [List.mem_singleton.1 he]; exact hok, fun _ _ => trivial⟩

theorem Keeps.bind {x : Recording E H α} {f : α → Recording E H β} (hx : Keeps ok P x)
    (hf : ∀ a, P a → Keeps ok Q (f a)) : Keeps ok Q (x >>= f) := by
  obtain ⟨result, log⟩ := x
  cases result with
  | ok a =>
      have hfa := hf a (hx.result a rfl)
      refine ⟨fun e he => ?_, hfa.result⟩
      rcases List.mem_append.1 he with he | he
      · exact hx.log e he
      · exact hfa.log e he
  | error e => exact ⟨hx.log, fun b hb => by cases hb⟩

end Recording

end SysProg
