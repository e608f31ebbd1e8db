import Mathlib.Data.Multiset.AddSub
import SysProg.HeapHelp.Accounting
import SysProg.Lib.Interleaving

set_option autoImplicit false

/-! # The wrappers in several threads (`utils/heap_help/heap_help.c`)

Each atomic update of `alloc_count` and each call of a function of the C library is one step of a
thread, and the steps of any number of threads interleave. A block is counted after it is allocated
and counted off before it is freed, so `alloc_count` covers the blocks that the program has in hand
and those that a wrapper was given and has not counted off. The steps of `heaph_touch` are left to
`SysProg.HeapHelp.Touch`: they do not touch `alloc_count`. -/

namespace SysProg.HeapHelp

open Interleaving

/-! ## The threads -/

/-- Where a thread is. -/
inductive WrapperPc where
  /-- In no wrapper. -/
  | idle
  /-- Before the call of the function of the C library. -/
  | default (c : Call)
  /-- Before `alloc_count_inc`, with the pointer to return. -/
  | inc (res : Ptr)
  /-- In `free`, before `alloc_count_sub`. -/
  | sub (ptr : Ptr)
  /-- In `free`, before `default_free`. -/
  | free (ptr : Ptr)

/-- What a thread does in a step. -/
inductive Event where
  /-- It calls a wrapper. -/
  | call (c : Call)
  /-- The function of the C library returns `res`, or leaves it in `*linep`. -/
  | default (res : Option Ptr)
  | inc
  | sub
  | free

/-- `alloc_count`, where each thread is, and the pointers that the program has in hand: those that
    completed calls have returned and that were not freed or reallocated since. -/
structure ThreadsState (T : Type) where
  allocCount : Int
  pc : T → WrapperPc
  owned : Multiset Ptr
  /-- A double free was reported. -/
  exited : Bool

/-- The block a call frees or may move. -/
def Call.block : Call → Option Ptr
  | .realloc ptr _ => ptr
  | .getline line _ => line
  | .free ptr => ptr
  | _ => none

/-- The pointer the program has after `realloc` or `getline` of the block at `p`: the one returned,
    or the old one when `realloc` fails. -/
def Call.kept (c : Call) (p : Ptr) (res : Option Ptr) : Multiset Ptr :=
  match res, c with
  | some q, _ => {q}
  | none, .realloc _ size => if size = 0 then 0 else {p}
  | none, _ => 0

variable {T : Type} [DecidableEq T]

/-- The thread `t` is at `p` next. -/
def ThreadsState.goto (s : ThreadsState T) (t : T) (p : WrapperPc) : ThreadsState T :=
  { s with pc := Function.update s.pc t p }

/-- A call of a wrapper, up to its first step. -/
def callStep (t : T) (c : Call) (s : ThreadsState T) : ThreadsState T :=
  match c, c.block with
  | .free _, none => s
  | .free _, some p => { s.goto t (.sub p) with owned := s.owned.erase p }
  | c, none => s.goto t (.default c)
  | c, some p => { s.goto t (.default c) with owned := s.owned.erase p }

/-- The function of the C library returns to the wrapper. -/
def defaultStep (t : T) (c : Call) (res : Option Ptr) (s : ThreadsState T) : ThreadsState T :=
  match c.block, res with
  | none, none => s.goto t .idle
  | none, some q => s.goto t (.inc q)
  | some p, res => { s.goto t .idle with owned := s.owned + c.kept p res }

/-- A step of a thread, if it is one it can make. -/
def threadStep (l : T × Event) (s : ThreadsState T) : Option (ThreadsState T) :=
  if s.exited then none
  else
    match s.pc l.1, l.2 with
    | .idle, .call c => some (callStep l.1 c s)
    | .default c, .default res => some (defaultStep l.1 c res s)
    | .inc res, .inc =>
      some { s.goto l.1 .idle with allocCount := s.allocCount + 1, owned := res ::ₘ s.owned }
    | .sub ptr, .sub =>
      some { s.goto l.1 (.free ptr) with
        allocCount := s.allocCount - 1, exited := decide (s.allocCount - 1 < 0) }
    | .free _, .free => some (s.goto l.1 .idle)
    | _, _ => none

/-- No wrapper was called yet. -/
def threadsStart : ThreadsState T :=
  { allocCount := 0, pc := fun _ => .idle, owned := 0, exited := false }

/-- A pointer that is passed to `free` or to be reallocated is one the program has in hand. -/
def OwnsBlock (s : ThreadsState T) (l : T × Event) : Prop :=
  ∀ c p, l.2 = .call c → c.block = some p → p ∈ s.owned

/-! ## The count covers the blocks -/

/-- The blocks a thread was given and has not counted off. -/
def WrapperPc.weight : WrapperPc → Nat
  | .default c => if c.block.isSome then 1 else 0
  | .sub _ => 1
  | _ => 0

/-- `alloc_count` covers the blocks in hand and those given to wrappers. -/
structure Covered [Fintype T] (s : ThreadsState T) : Prop where
  running : s.exited = false
  count : (s.owned.card : Int) + (∑ u, (s.pc u).weight : Nat) ≤ s.allocCount

section Steps

variable [Fintype T] {s s' : ThreadsState T} {t : T}

theorem weight_goto (s : ThreadsState T) (t : T) (p : WrapperPc) :
    ∑ u, ((s.goto t p).pc u).weight + (s.pc t).weight = ∑ u, (s.pc u).weight + p.weight :=
  sum_update s.pc WrapperPc.weight t p

theorem kept_card (c : Call) (p : Ptr) (res : Option Ptr) : (c.kept p res).card ≤ 1 := by
  unfold Call.kept
  split
  · simp
  · split <;> simp
  · simp

/-- A thread goes on, and what it adds to the blocks that are to be covered it adds to the count. -/
theorem Covered.goto (h : Covered s) (t : T) (q : WrapperPc) (owned : Multiset Ptr) (n : Int)
    {exited : Bool} (hrun : exited = false)
    (hn : (owned.card : Int) + q.weight + s.allocCount ≤ s.owned.card + (s.pc t).weight + n) :
    Covered { s.goto t q with owned := owned, allocCount := n, exited := exited } := by
  have hweight := weight_goto s t q
  have hcount := h.count
  refine ⟨hrun, ?_⟩
  simp only [ThreadsState.goto] at hweight ⊢
  omega

theorem callStep_covered (h : Covered s) (hpc : s.pc t = .idle) {c : Call}
    (howned : ∀ p, c.block = some p → p ∈ s.owned) : Covered (callStep t c s) := by
  have hidle : (s.pc t).weight = 0 := by rw [hpc]; rfl
  -- a block that is passed to the wrapper is not in hand any more
  have hsub : ∀ p, c.block = some p → ∀ q : WrapperPc, q.weight ≤ 1 →
      Covered { s.goto t q with owned := s.owned.erase p } := by
    intro p hp q hq
    have hcard := Multiset.card_erase_add_one (howned p hp)
    exact h.goto t q _ s.allocCount h.running (by omega)
  unfold callStep
  split
  · exact h
  · next p hp => exact hsub p hp _ (Nat.le_refl 1)
  · next c _ _ _ hblock =>
      have hweight : (WrapperPc.default c).weight = 0 := by rw [WrapperPc.weight, hblock]; rfl
      exact h.goto t (.default c) s.owned s.allocCount h.running (by omega)
  · next p _ hp =>
      refine hsub p hp _ ?_
      rw [WrapperPc.weight]
      split <;> omega

theorem defaultStep_covered (h : Covered s) {c : Call} (hpc : s.pc t = .default c)
    (res : Option Ptr) : Covered (defaultStep t c res s) := by
  unfold defaultStep
  split
  · exact h.goto t .idle s.owned s.allocCount h.running (by simp only [WrapperPc.weight]; omega)
  · next q _ =>
      exact h.goto t (.inc q) s.owned s.allocCount h.running (by simp only [WrapperPc.weight]; omega)
  · next res _ _ p hp =>
      have hweight : (s.pc t).weight = 1 := by rw [hpc, WrapperPc.weight, hp]; rfl
      have hcard := kept_card c p res
      refine h.goto t .idle (s.owned + c.kept p res) s.allocCount h.running ?_
      rw [hweight, Multiset.card_add]
      simp only [WrapperPc.weight]
      omega

theorem threadStep_covered (h : Covered s) {l : T × Event} (hok : OwnsBlock s l)
    (hstep : threadStep l s = some s') : Covered s' := by
  have hcount := h.count
  obtain ⟨t, e⟩ := l
  rw [threadStep, if_neg (by simp [h.running])] at hstep
  split at hstep
  · next c hpc he =>
      obtain rfl := Option.some.inj hstep
      exact callStep_covered h hpc fun p hp => hok c p he hp
  · next c res hpc _ =>
      obtain rfl := Option.some.inj hstep
      exact defaultStep_covered h hpc res
  · next res hpc _ =>
      obtain rfl := Option.some.inj hstep
      refine h.goto t .idle (res ::ₘ s.owned) (s.allocCount + 1) h.running ?_
      rw [Multiset.card_cons]
      simp only [WrapperPc.weight]
      omega
  · next ptr hpc _ =>
      -- the block that is counted off is covered
      obtain rfl := Option.some.inj hstep
      have hone : (s.pc t).weight = 1 := by rw [hpc]; rfl
      have hweight := weight_goto s t (.free ptr)
      rw [hone, show WrapperPc.weight (.free ptr) = 0 from rfl] at hweight
      refine h.goto t (.free ptr) s.owned (s.allocCount - 1) (decide_eq_false (by omega)) ?_
      rw [hone, show WrapperPc.weight (.free ptr) = 0 from rfl]
      omega
  · next ptr hpc _ =>
      obtain rfl := Option.some.inj hstep
      exact h.goto t .idle s.owned s.allocCount h.running (by simp only [WrapperPc.weight]; omega)
  · cases hstep

end Steps

/-- **No false report**: in every interleaving of any number of threads that pass to `free`, or have
    reallocated, only blocks that completed calls have returned and that were not freed or
    reallocated since, `alloc_count` is never negative and no double free is reported. -/
theorem no_false_double_free [Fintype T] {s : ThreadsState T}
    (h : Reaches threadStep OwnsBlock threadsStart s) : 0 ≤ s.allocCount ∧ s.exited = false := by
  have hinv : Covered s := by
    refine Reaches.invariant Covered (fun s l s' hs hok hstep => threadStep_covered hs hok hstep)
      ⟨rfl, ?_⟩ h
    simp [threadsStart, WrapperPc.weight]
  have hcount := hinv.count
  exact ⟨by omega, hinv.running⟩

/-- One thread allocates a block, the other one frees it. -/
theorem no_false_double_free_handed_over :
    ∃ s : ThreadsState Bool, after threadStep [(false, .call (.malloc 8)), (false, .default (some 1)),
        (false, .inc), (true, .call (.free (some 1))), (true, .sub)] threadsStart = some s ∧
      0 ≤ s.allocCount ∧ s.exited = false := by
  have hlocal : ∀ (s : ThreadsState Bool) (t : Bool) (e : Event),
      (∀ c, e = .call c → c.block = none) → OwnsBlock s (t, e) := by
    intro s t e he c p hc hp
    rw [he c hc] at hp
    cases hp
  refine ⟨_, rfl, no_false_double_free (.tail (l := (true, .sub))
    (.tail (l := (true, .call (.free (some 1)))) (.tail (l := (false, .inc))
    (.tail (l := (false, .default (some 1))) (.tail (l := (false, .call (.malloc 8))) .refl
    (hlocal _ _ _ fun c hc => ?_) rfl) (hlocal _ _ _ nofun) rfl) (hlocal _ _ _ nofun) rfl)
    (fun c p hc hp => ?_) rfl) (hlocal _ _ _ nofun) rfl)⟩
  · cases hc
    rfl
  · cases hc
    cases hp
    exact Multiset.mem_singleton_self 1

/-! ## A single thread -/

section Alone

variable {H : Type} {libc : Libc H} {s : ThreadsState T} {t : T}

/-- The thread `t` alone can go on from `s`, outside the wrappers, until `alloc_count` is `n` and it is
    outside the wrappers again. -/
def ComesTo (t : T) (s : ThreadsState T) (n : Int) : Prop :=
  ∃ (es : List Event) (s' : ThreadsState T), after threadStep (es.map fun e => (t, e)) s = some s' ∧
    s'.allocCount = n ∧ s'.exited = false ∧ s'.pc t = .idle

/-- A call that returns what the C library returned, in `res`. -/
theorem comesTo_wrapper (hrun : s.exited = false) (hidle : s.pc t = .idle) (c : Call)
    (hfree : ∀ ptr, c ≠ .free ptr) (res : Option Ptr) :
    ComesTo t s (s.allocCount + if c.block = none ∧ res ≠ none then 1 else 0) := by
  have hcall : ∃ s1, threadStep (t, .call c) s = some s1 ∧ s1.allocCount = s.allocCount ∧
      s1.exited = false ∧ s1.pc t = .default c := by
    refine ⟨callStep t c s, by simp [threadStep, hrun, hidle], ?_⟩
    unfold callStep
    split
    · exact absurd rfl (hfree _)
    · exact absurd rfl (hfree _)
    · exact ⟨rfl, hrun, Function.update_self ..⟩
    · exact ⟨rfl, hrun, Function.update_self ..⟩
  obtain ⟨s1, hstep1, hcount1, hrun1, hpc1⟩ := hcall
  have hstep2 : threadStep (t, .default res) s1 = some (defaultStep t c res s1) := by
    simp [threadStep, hrun1, hpc1]
  rcases hblock : c.block with _ | p
  · rcases res with _ | q
    · refine ⟨[.call c, .default none], defaultStep t c none s1, by simp [after, hstep1, hstep2],
        ?_⟩
      simp [defaultStep, hblock, ThreadsState.goto, hcount1, hrun1]
    · have hstep3 : threadStep (t, .inc) (defaultStep t c (some q) s1) = some
          { (s1.goto t (.inc q)).goto t .idle with
            allocCount := s1.allocCount + 1, owned := q ::ₘ s1.owned } := by
        simp [threadStep, defaultStep, hblock, hrun1, ThreadsState.goto]
      refine ⟨[.call c, .default (some q), .inc], { (s1.goto t (.inc q)).goto t .idle with
          allocCount := s1.allocCount + 1, owned := q ::ₘ s1.owned },
        by simp only [List.map_cons, List.map_nil, after, hstep1, hstep2, hstep3, Option.bind_some],
        ?_⟩
      simp [ThreadsState.goto, hcount1, hrun1]
  · refine ⟨[.call c, .default res], defaultStep t c res s1, by simp [after, hstep1, hstep2], ?_⟩
    simp [defaultStep, hblock, ThreadsState.goto, hcount1, hrun1]

theorem comesTo_free (hrun : s.exited = false) (hidle : s.pc t = .idle) (p : Ptr)
    (hpos : 1 ≤ s.allocCount) : ComesTo t s (s.allocCount - 1) := by
  obtain ⟨s1, hs1⟩ : ∃ s1, s1 = { s.goto t (.sub p) with owned := s.owned.erase p } := ⟨_, rfl⟩
  obtain ⟨s2, hs2⟩ : ∃ s2, s2 = { s1.goto t (.free p) with allocCount := s.allocCount - 1 } :=
    ⟨_, rfl⟩
  have hcall : threadStep (t, .call (.free (some p))) s = some s1 := by
    simp [threadStep, hrun, hidle, callStep, Call.block, hs1]
  have hsub : threadStep (t, .sub) s1 = some s2 := by
    simp [threadStep, ThreadsState.goto, hs2, hs1, hrun, hpos]
  have hfree : threadStep (t, .free) s2 = some (s2.goto t .idle) := by
    simp [threadStep, ThreadsState.goto, hs2, hs1, hrun]
  refine ⟨[.call (.free (some p)), .sub, .free], s2.goto t .idle,
    by simp only [List.map_cons, List.map_nil, after, hcall, hsub, hfree, Option.bind_some],
    by rw [hs2]; rfl, by rw [hs2, hs1]; exact hrun, Function.update_self ..⟩

/-- **The two models agree**: a thread that nobody interrupts leaves in `alloc_count` what the
    wrappers, called one after the other, leave there. -/
theorem perform_comesTo (c : Call) {h h' : HeapState H} (hready : Ready .utils h)
    (hperform : (perform .utils libc c).run h = pure ((), h')) (hrun : s.exited = false)
    (hidle : s.pc t = .idle) (hcount : s.allocCount = h.allocCount) :
    ComesTo t s h'.allocCount := by
  have hresult : ∀ {A : Type} (x : M H A) (a : A) (h1 : HeapState H), x.run h = pure (a, h1) →
      (do let _ ← x : M H Unit).run h = pure ((), h') → h1 = h' := by
    intro A x a h1 hx hdo
    rw [StateT.run_bind, hx, pure_bind] at hdo
    exact congrArg Prod.snd ((pure_inj _ _).1 hdo)
  -- where the library stops, the wrapper does not return
  have hgives : ∀ {A : Type} {f : H → C (A × H)} {b : A → Prop} [DecidablePred b],
      (do
        let _ ← (do
          touch .utils
          let res ← callDefault f
          if b res then allocCountInc
          pure res : M H A) : M H Unit).run h = pure ((), h') →
      ∃ r, f h.heap = pure r ∧ h'.allocCount = h.allocCount + if b r.1 then 1 else 0 := by
    intro A f b _ hdo
    cases hf : f h.heap with
    | error e =>
        have hstops := wrapper_stops b hready hf
        rw [StateT.run_bind, hstops] at hdo
        cases hdo
    | ok r =>
        obtain ⟨h1, hx, -, -, hcount1⟩ := wrapper_run b hready hf
        obtain rfl := hresult _ _ _ hx hdo
        exact ⟨r, rfl, hcount1⟩
  have hnew : ∀ (f : H → C (Option Ptr × H)) (c : Call), (∀ ptr, c ≠ .free ptr) → c.block = none →
      (do let _ ← countNew .utils f : M H Unit).run h = pure ((), h') →
      ComesTo t s h'.allocCount := by
    intro f c hfree hblock hdo
    obtain ⟨r, -, hcount1⟩ := hgives hdo
    have hcomes := comesTo_wrapper hrun hidle c hfree r.1
    rw [hblock, hcount] at hcomes
    simpa [hcount1] using hcomes
  cases c with
  | malloc size => exact hnew _ (.malloc size) nofun rfl hperform
  | calloc num size => exact hnew _ (.calloc num size) nofun rfl hperform
  | strdup ptr => exact hnew _ (.strdup ptr) nofun rfl hperform
  | realloc ptr size =>
      obtain ⟨r, -, hcount1⟩ := hgives hperform
      have hcomes := comesTo_wrapper hrun hidle (.realloc ptr size) nofun r.1
      rw [hcount] at hcomes
      rw [hcount1]
      exact hcomes
  | getline line linecap =>
      obtain ⟨r, -, hcount1⟩ := hgives hperform
      have hcomes := comesTo_wrapper hrun hidle (.getline line linecap) nofun r.1.line
      rw [hcount] at hcomes
      rw [hcount1]
      exact hcomes
  | free ptr =>
      cases ptr with
      | none =>
          obtain rfl : h = h' := congrArg Prod.snd ((pure_inj _ _).1 hperform)
          exact ⟨[.call (.free none)], s, by simp [after, threadStep, hrun, hidle, callStep, Call.block],
            hcount, hrun, hidle⟩
      | some p =>
          simp only [perform, free, StateT.run_bind, heaphTouch_run hready, pure_bind] at hperform
          by_cases hpos : 1 ≤ h.allocCount
          · have hsub := allocCountSub_run (s := { h with isDone := true, initialized := true }) hpos
            rw [hsub, pure_bind] at hperform
            obtain ⟨heap, hfree⟩ : ∃ heap, libc.free p h.heap = pure heap := by
              cases hf : libc.free p h.heap with
              | error e => cases hperform.symm.trans (callFree_stops rfl hf)
              | ok heap => exact ⟨heap, rfl⟩
            have hruns := hperform.symm.trans (callFree_run rfl hfree)
            obtain rfl := congrArg Prod.snd ((pure_inj _ _).1 hruns)
            have hcomes := comesTo_free hrun hidle p (by omega)
            rw [hcount] at hcomes
            exact hcomes
          · have hexit : (allocCountSub : M H Unit).run
                { h with isDone := true, initialized := true } = throw (.exit 1) := by
              simp [allocCountSub, hpos]
            rw [hexit] at hperform
            cases hperform

end Alone

end SysProg.HeapHelp
