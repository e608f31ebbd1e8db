import SysProg.HeapHelp.Threads

set_option autoImplicit false

/-! # The count when no wrapper runs (`utils/heap_help/heap_help.c`)

In several threads `alloc_count` is exact too, up to what the wrappers that are running have in hand:
it is ahead of the blocks of the program by one for each block that a function of the C library has
taken without giving one back, as `realloc` to the size 0 does. -/

namespace SysProg.HeapHelp

open Interleaving

variable {T : Type} [DecidableEq T]

/-- How many blocks the step `l` loses: one, when a function of the C library is given a block and
    returns none. -/
def lost (s : ThreadsState T) (l : T × Event) : Nat :=
  match s.pc l.1, l.2 with
  | .default c, .default res =>
    match c.block with
    | some p => 1 - (c.kept p res).card
    | none => 0
  | _, _ => 0

/-- A step, with a count of the blocks lost so far. -/
def countedStep (l : T × Event) (p : ThreadsState T × Nat) : Option (ThreadsState T × Nat) :=
  (threadStep l p.1).map fun s' => (s', p.2 + lost p.1 l)

/-- `alloc_count` is the number of blocks in hand, given to wrappers and lost. -/
def Exact [Fintype T] (s : ThreadsState T) (n : Nat) : Prop :=
  s.allocCount = (s.owned.card : Int) + (∑ u, (s.pc u).weight : Nat) + n

section Steps

variable [Fintype T] {s s' : ThreadsState T} {t : T} {n : Nat}

/-- A thread goes on, and what it adds to the blocks it adds to the count. -/
theorem Exact.goto (h : Exact s n) (t : T) (q : WrapperPc) (owned : Multiset Ptr) (m : Int) (k : Nat)
    (exited : Bool)
    (hm : (owned.card : Int) + q.weight + k + s.allocCount = s.owned.card + (s.pc t).weight + n + m) :
    Exact { s.goto t q with owned := owned, allocCount := m, exited := exited } k := by
  have hweight := weight_goto s t q
  unfold Exact at h ⊢
  simp only [ThreadsState.goto] at hweight ⊢
  omega

theorem callStep_exact (h : Exact s n) (hpc : s.pc t = .idle) {c : Call}
    (howned : ∀ p, c.block = some p → p ∈ s.owned) : Exact (callStep t c s) n := by
  have hidle : (s.pc t).weight = 0 := by rw [hpc]; rfl
  -- a block that is passed to the wrapper is in the hands of the wrapper
  have hsub : ∀ p, c.block = some p → ∀ q : WrapperPc, q.weight = 1 →
      Exact { s.goto t q with owned := s.owned.erase p } n := by
    intro p hp q hq
    have hcard := Multiset.card_erase_add_one (howned p hp)
    exact h.goto t q _ s.allocCount n s.exited (by omega)
  unfold callStep
  split
  · exact h
  · next p hp => exact hsub p hp _ rfl
  · next c _ _ _ hblock =>
      have hweight : (WrapperPc.default c).weight = 0 := by rw [WrapperPc.weight, hblock]; rfl
      exact h.goto t (.default c) s.owned s.allocCount n s.exited (by omega)
  · next p _ hp =>
      refine hsub p hp _ ?_
      rw [WrapperPc.weight, hp]
      rfl

theorem defaultStep_exact (h : Exact s n) {c : Call} (hpc : s.pc t = .default c)
    (res : Option Ptr) : Exact (defaultStep t c res s) (n + lost s (t, .default res)) := by
  have hlost : lost s (t, .default res) = match c.block with
      | some p => 1 - (c.kept p res).card
      | none => 0 := by
    simp only [lost, hpc]
  have hweight : (s.pc t).weight = if c.block.isSome then 1 else 0 := by rw [hpc, WrapperPc.weight]
  unfold defaultStep
  split
  · next hblock =>
      rw [hblock] at hlost hweight
      simp only [Option.isSome_none, Bool.false_eq_true, if_false] at hlost hweight
      refine h.goto t .idle s.owned s.allocCount _ s.exited ?_
      rw [hweight, hlost]
      simp only [WrapperPc.weight]
      omega
  · next q hblock =>
      rw [hblock] at hlost hweight
      simp only [Option.isSome_none, Bool.false_eq_true, if_false] at hlost hweight
      refine h.goto t (.inc q) s.owned s.allocCount _ s.exited ?_
      rw [hweight, hlost]
      simp only [WrapperPc.weight]
      omega
  · next res _ _ p hblock =>
      rw [hblock] at hlost hweight
      simp only [Option.isSome_some, if_true] at hlost hweight
      have hcard := kept_card c p res
      refine h.goto t .idle (s.owned + c.kept p res) s.allocCount _ s.exited ?_
      rw [hweight, hlost, Multiset.card_add]
      simp only [WrapperPc.weight]
      omega

/-- **A step keeps the count exact.** -/
theorem threadStep_exact (h : Exact s n) (hrun : s.exited = false) {l : T × Event}
    (hok : OwnsBlock s l) (hstep : threadStep l s = some s') : Exact s' (n + lost s l) := by
  obtain ⟨t, e⟩ := l
  rw [threadStep, if_neg (by simp [hrun])] at hstep
  split at hstep
  · next c hpc he =>
      obtain rfl := Option.some.inj hstep
      obtain rfl : e = .call c := he
      have hzero : lost s (t, .call c) = 0 := by simp only [lost, hpc]
      rw [hzero, add_zero]
      exact callStep_exact h hpc fun p hp => hok c p rfl hp
  · next c res hpc he =>
      obtain rfl := Option.some.inj hstep
      obtain rfl : e = .default res := he
      exact defaultStep_exact h hpc res
  · next res hpc he =>
      obtain rfl := Option.some.inj hstep
      obtain rfl : e = .inc := he
      have hzero : lost s (t, .inc) = 0 := by simp only [lost, hpc]
      have hpc' : s.pc t = .inc res := hpc
      refine h.goto t .idle (res ::ₘ s.owned) (s.allocCount + 1) _ s.exited ?_
      rw [hzero, hpc', Multiset.card_cons]
      simp only [WrapperPc.weight]
      omega
  · next ptr hpc he =>
      obtain rfl := Option.some.inj hstep
      obtain rfl : e = .sub := he
      have hzero : lost s (t, .sub) = 0 := by simp only [lost, hpc]
      have hpc' : s.pc t = .sub ptr := hpc
      refine h.goto t (.free ptr) s.owned (s.allocCount - 1) _ _ ?_
      rw [hzero, hpc']
      simp only [WrapperPc.weight]
      omega
  · next ptr hpc he =>
      obtain rfl := Option.some.inj hstep
      obtain rfl : e = .free := he
      have hzero : lost s (t, .free) = 0 := by simp only [lost, hpc]
      have hpc' : s.pc t = .free ptr := hpc
      refine h.goto t .idle s.owned s.allocCount _ s.exited ?_
      rw [hzero, hpc']
      simp only [WrapperPc.weight]
      omega
  · cases hstep

end Steps

end SysProg.HeapHelp
