import SysProg.HeapHelp.Wrappers

set_option autoImplicit false

/-! # Leak accounting (`utils/heap_help/heap_help.c`, `2/solution/heap_help/heap_help.c`)

What a sequence of calls by a single thread makes of `alloc_count`. The difference between it and the
number of live blocks is kept by every call but one: `realloc` of a block to the size 0 frees the
block, and `alloc_count` is not told. -/

namespace SysProg.HeapHelp

/-! ## Legal programs -/

/-- The call frees or reallocates a live block, if any. -/
def Call.Legal (blocks : Finset Ptr) : Call → Prop
  | .realloc (some p) _ => p ∈ blocks
  | .getline (some p) _ => p ∈ blocks
  | .free (some p) => p ∈ blocks
  | _ => True

/-- The calls are legal, each in the state it is made in. -/
def LegalRun {H : Type} (copy : Copy) (libc : Libc H) (live : H → Finset Ptr) :
    List Call → HeapState H → Prop
  | [], _ => True
  | c :: calls, s => c.Legal (live s.heap) ∧
      ∀ s', (perform copy libc c).run s = pure ((), s') → LegalRun copy libc live calls s'

/-- `realloc` of a block to the size 0. -/
def Call.shrinksToZero : Call → Bool
  | .realloc (some _) 0 => true
  | _ => false

/-! ## The pieces of a wrapper -/

section Accounting

variable {H : Type} {copy : Copy} {libc : Libc H} {live : H → Finset Ptr}

/-- The variables between two calls. -/
structure Ready (copy : Copy) (s : HeapState H) : Prop where
  unlocked : s.globalLock = false
  initialized : s.initialized = (s.isDone || decide (copy = .solution))

/-- The number of blocks `alloc_count` is ahead of the live ones. -/
def excess (live : H → Finset Ptr) (s : HeapState H) : Int := s.allocCount - (live s.heap).card

theorem start_ready (copy : Copy) (h : H) : Ready copy (start copy h) := ⟨rfl, rfl⟩

theorem heaphTouch_run {s : HeapState H} (hs : Ready .utils s) :
    (heaphTouch : M H Unit).run s = pure ((), { s with isDone := true, initialized := true }) := by
  obtain ⟨hunlocked, hinit⟩ := hs
  obtain ⟨heap, count, lock, done, init⟩ := s
  simp only at hunlocked hinit
  subst hunlocked hinit
  cases done <;> rfl

theorem touch_run {s : HeapState H} (hs : Ready copy s) :
    ∃ s', (touch copy).run s = pure ((), s') ∧ Ready copy s' ∧ s'.initialized = true ∧
      s'.heap = s.heap ∧ s'.allocCount = s.allocCount := by
  cases copy with
  | utils => exact ⟨_, heaphTouch_run hs, ⟨hs.unlocked, rfl⟩, rfl, rfl, rfl⟩
  | solution => exact ⟨s, rfl, hs, by simp [hs.initialized], rfl, rfl⟩

theorem callDefault_run {A : Type} {f : H → C (A × H)} {s : HeapState H} {r : A × H}
    (hs : s.initialized = true) (hf : f s.heap = pure r) :
    (callDefault f).run s = pure (r.1, { s with heap := r.2 }) := by
  obtain ⟨heap, count, lock, done, init⟩ := s
  simp only at hs hf
  subst hs
  simp [callDefault, hf]

/-- The wrappers stop where the C library does. -/
theorem callDefault_stops {A : Type} {f : H → C (A × H)} {s : HeapState H} {e : Stop}
    (hs : s.initialized = true) (hf : f s.heap = throw e) : (callDefault f).run s = throw e := by
  obtain ⟨heap, count, lock, done, init⟩ := s
  simp only at hs hf
  subst hs
  simp [callDefault, hf]

theorem callFree_run {s : HeapState H} {p : Ptr} {h : H} (hs : s.initialized = true)
    (hf : libc.free p s.heap = pure h) :
    (callFree libc p).run s = pure ((), { s with heap := h }) :=
  callDefault_run (r := ((), h)) hs (by rw [hf]; rfl)

theorem callFree_stops {s : HeapState H} {p : Ptr} {e : Stop} (hs : s.initialized = true)
    (hf : libc.free p s.heap = throw e) : (callFree libc p).run s = throw e :=
  callDefault_stops hs (by rw [hf]; rfl)

@[simp] theorem allocCountInc_run (s : HeapState H) :
    (allocCountInc : M H Unit).run s = pure ((), { s with allocCount := s.allocCount + 1 }) := rfl

theorem allocCountSub_run {s : HeapState H} (hs : 1 ≤ s.allocCount) :
    (allocCountSub : M H Unit).run s = pure ((), { s with allocCount := s.allocCount - 1 }) := by
  simp [allocCountSub, hs]

/-- A wrapper that counts its block when `b` holds of what the library returns. -/
theorem wrapper_run {A : Type} {f : H → C (A × H)} (b : A → Prop) [DecidablePred b]
    {s : HeapState H} (hs : Ready copy s) {r : A × H} (hf : f s.heap = pure r) :
    ∃ s', (do
        touch copy
        let res ← callDefault f
        if b res then allocCountInc
        pure res : M H A).run s = pure (r.1, s') ∧ Ready copy s' ∧
      s'.heap = r.2 ∧ s'.allocCount = s.allocCount + if b r.1 then 1 else 0 := by
  obtain ⟨s1, htouch, hready, hinit, hheap, hcount⟩ := touch_run hs
  rw [← hheap] at hf
  simp only [StateT.run_bind, htouch, pure_bind, callDefault_run hinit hf]
  by_cases hb : b r.1
  · refine ⟨{ s1 with heap := r.2, allocCount := s1.allocCount + 1 }, by simp [hb],
      ⟨hready.unlocked, hready.initialized⟩, rfl, ?_⟩
    rw [if_pos hb, hcount]
  · refine ⟨{ s1 with heap := r.2 }, by simp [hb], ⟨hready.unlocked, hready.initialized⟩,
      rfl, ?_⟩
    rw [if_neg hb, hcount, add_zero]

theorem wrapper_stops {A : Type} {f : H → C (A × H)} (b : A → Prop) [DecidablePred b]
    {s : HeapState H} (hs : Ready copy s) {e : Stop} (hf : f s.heap = throw e) :
    (do
        touch copy
        let res ← callDefault f
        if b res then allocCountInc
        pure res : M H A).run s = throw e := by
  obtain ⟨s1, htouch, -, hinit, hheap, -⟩ := touch_run hs
  rw [← hheap] at hf
  simp only [StateT.run_bind, htouch, pure_bind, callDefault_stops hinit hf]
  rfl

/-! ## Blocks -/

theorem Allocates.card {h : H} {r : Option Ptr × H} (hr : Allocates live h r) :
    ((live r.2).card : Int) = (live h).card + if r.1 ≠ none then 1 else 0 := by
  unfold Allocates at hr
  split at hr
  · next p hp =>
      obtain ⟨hfresh, hlive⟩ := hr
      rw [hlive, Finset.card_insert_of_notMem hfresh, hp, if_pos (by simp)]
      push_cast
      rfl
  · next hp => rw [hr, hp, if_neg (by simp), add_zero]

theorem card_erase_live {h : H} {p : Ptr} (hp : p ∈ live h) :
    (((live h).erase p).card : Int) = (live h).card - 1 := by
  have hpos := Finset.card_pos.2 ⟨p, hp⟩
  rw [Finset.card_erase_of_mem hp]
  omega

theorem Moves.card {h : H} {p : Ptr} (hp : p ∈ live h) {r : Option Ptr × H}
    (hr : Moves live p h r) : ((live r.2).card : Int) = (live h).card := by
  obtain ⟨q, -, hq, hlive⟩ := hr
  have hcard := card_erase_live hp
  rw [hlive, Finset.card_insert_of_notMem hq]
  push_cast
  omega

/-! ## The calls -/

/-- What a call keeps: it returns, ready for the next one, and `alloc_count` gets ahead of the live
    blocks by `n`. -/
def Keeps (copy : Copy) (live : H → Finset Ptr) (s : HeapState H) (n : Int) (x : M H Unit) : Prop :=
  ∃ s', x.run s = pure ((), s') ∧ Ready copy s' ∧ excess live s' = excess live s + n

variable {s : HeapState H}

theorem countNew_keeps (hs : Ready copy s) {f : H → C (Option Ptr × H)}
    (hf : Gives (f s.heap) (Allocates live s.heap)) :
    Keeps copy live s 0 (do let _ ← countNew copy f) := by
  obtain ⟨r, hcall, hr⟩ := hf
  obtain ⟨s', hrun, hready, hheap, hcount⟩ := wrapper_run (fun res => res ≠ none) hs hcall
  have hcard := hr.card
  refine ⟨s', ?_, hready, ?_⟩
  · rw [StateT.run_bind, countNew, hrun]
    rfl
  · rw [excess, excess, hheap, hcount, hcard]
    omega

theorem realloc_keeps (hlaw : libc.Lawful live) (hs : Ready copy s) (ptr : Option Ptr) (size : Nat)
    (hlegal : (Call.realloc ptr size).Legal (live s.heap)) :
    Keeps copy live s (if (Call.realloc ptr size).shrinksToZero then 1 else 0)
      (do let _ ← realloc copy libc ptr size) := by
  -- what is to be shown of the result of the library
  have hcall : ∀ n : Int, Gives (libc.realloc ptr size s.heap) (fun r =>
      (if ptr = none ∧ r.1 ≠ none then 1 else 0) - (live r.2).card = n - (live s.heap).card) →
      Keeps copy live s n (do let _ ← realloc copy libc ptr size) := by
    rintro n ⟨r, hcall, hr⟩
    obtain ⟨s', hrun, hready, hheap, hcount⟩ :=
      wrapper_run (fun res => ptr = none ∧ res ≠ none) hs hcall
    refine ⟨s', by rw [StateT.run_bind, realloc, hrun]; rfl, hready, ?_⟩
    rw [excess, excess, hheap, hcount]
    omega
  apply hcall
  cases ptr with
  | none =>
      obtain ⟨r, hr, halloc⟩ := hlaw.realloc_null size s.heap
      have hcard := halloc.card
      refine ⟨r, hr, ?_⟩
      simp only [Call.shrinksToZero, true_and, Bool.false_eq_true, if_false]
      omega
  | some p =>
      have hp : p ∈ live s.heap := hlegal
      by_cases hsize : size = 0
      · subst hsize
        obtain ⟨r, hr, -, hlive⟩ := hlaw.realloc_zero p s.heap hp
        have hcard := card_erase_live hp
        have hold : ¬ (some p = none ∧ r.1 ≠ none) := by simp
        refine ⟨r, hr, ?_⟩
        simp only [if_neg hold, hlive, hcard, Call.shrinksToZero, if_true]
        omega
      · have hflag : (Call.realloc (some p) size).shrinksToZero = false := by
          cases size with
          | zero => exact absurd rfl hsize
          | succ n => rfl
        obtain ⟨r, hr, hmoved⟩ := hlaw.realloc p size s.heap hp hsize
        have hold : ¬ (some p = none ∧ r.1 ≠ none) := by simp
        have hcard : ((live r.2).card : Int) = (live s.heap).card := by
          rcases hmoved with hmoved | ⟨-, hlive⟩
          · exact hmoved.card hp
          · rw [hlive]
        refine ⟨r, hr, ?_⟩
        simp only [if_neg hold, hcard, hflag, Bool.false_eq_true, if_false]

theorem getline_keeps (hlaw : libc.Lawful live) (hs : Ready copy s) (line : Option Ptr) (cap : Nat)
    (hlegal : (Call.getline line cap).Legal (live s.heap)) :
    Keeps copy live s 0 (do let _ ← getline copy libc line cap) := by
  have hcall : Gives (libc.getline line cap s.heap) fun r =>
      ((live r.2).card : Int)
        = (live s.heap).card + if line = none ∧ r.1.line ≠ none then 1 else 0 := by
    cases line with
    | none =>
        obtain ⟨r, hr, halloc⟩ := hlaw.getline_null cap s.heap
        refine ⟨r, hr, ?_⟩
        simpa using halloc.card
    | some p =>
        have hp : p ∈ live s.heap := hlegal
        obtain ⟨r, hr, hmoved⟩ := hlaw.getline p cap s.heap hp
        have hold : ¬ (some p = none ∧ r.1.line ≠ none) := by simp
        refine ⟨r, hr, ?_⟩
        simp only [if_neg hold, add_zero]
        exact hmoved.card hp
  obtain ⟨r, hr, hcard⟩ := hcall
  obtain ⟨s', hrun, hready, hheap, hcount⟩ :=
    wrapper_run (fun res : LineResult => line = none ∧ res.line ≠ none) hs hr
  refine ⟨s', by rw [StateT.run_bind, getline, hrun]; rfl, hready, ?_⟩
  rw [excess, excess, hheap, hcount, hcard]
  omega

theorem free_keeps (hlaw : libc.Lawful live) (hs : Ready copy s) (hexcess : 0 ≤ excess live s)
    (ptr : Option Ptr) (hlegal : (Call.free ptr).Legal (live s.heap)) :
    Keeps copy live s 0 (free copy libc ptr) := by
  cases ptr with
  | none => exact ⟨s, rfl, hs, by rw [add_zero]⟩
  | some p =>
      have hp : p ∈ live s.heap := hlegal
      have hcard := card_erase_live hp
      obtain ⟨h, hfree, hlive⟩ := hlaw.free p s.heap hp
      have hpos := Finset.card_pos.2 ⟨p, hp⟩
      rw [excess] at hexcess
      cases copy with
      | utils =>
          refine ⟨{ s with
            heap := h, allocCount := s.allocCount - 1, isDone := true, initialized := true }, ?_,
            ⟨hs.unlocked, rfl⟩, ?_⟩
          · simp only [free, StateT.run_bind, heaphTouch_run hs, pure_bind]
            rw [allocCountSub_run (by simp only; omega), pure_bind]
            exact callFree_run rfl hfree
          · simp only [excess, hlive, hcard]
            omega
      | solution =>
          have hinit : s.initialized = true := by simp [hs.initialized]
          refine ⟨{ s with heap := h, allocCount := s.allocCount - 1 }, ?_,
            ⟨hs.unlocked, hs.initialized⟩, ?_⟩
          · have hne : s.allocCount ≠ 0 := by omega
            simp [free, callFree_run hinit hfree, hne]
          · simp only [excess, hlive, hcard]
            omega

theorem perform_keeps (hlaw : libc.Lawful live) (hs : Ready copy s) (hexcess : 0 ≤ excess live s)
    (c : Call) (hlegal : c.Legal (live s.heap)) :
    Keeps copy live s (if c.shrinksToZero then 1 else 0) (perform copy libc c) := by
  cases c with
  | malloc size => exact countNew_keeps hs (hlaw.malloc size s.heap)
  | calloc num size => exact countNew_keeps hs (hlaw.calloc num size s.heap)
  | realloc ptr size => exact realloc_keeps hlaw hs ptr size hlegal
  | strdup ptr => exact countNew_keeps hs (hlaw.strdup ptr s.heap)
  | getline line cap => exact getline_keeps hlaw hs line cap hlegal
  | free ptr => exact free_keeps hlaw hs hexcess ptr hlegal

/-- A legal program runs to its end, and `alloc_count` gets ahead by one for every block that it
    shrinks to nothing. -/
theorem performAll_run (hlaw : libc.Lawful live) (calls : List Call) {s : HeapState H}
    (hs : Ready copy s) (hexcess : 0 ≤ excess live s) (hlegal : LegalRun copy libc live calls s) :
    ∃ s', (performAll copy libc calls).run s = pure ((), s') ∧
      excess live s' = excess live s + (calls.countP Call.shrinksToZero : Nat) := by
  induction calls generalizing s with
  | nil => exact ⟨s, rfl, by simp⟩
  | cons c calls ih =>
      obtain ⟨hc, hrest⟩ := hlegal
      obtain ⟨s1, hrun, hready, hkept⟩ := perform_keeps hlaw hs hexcess c hc
      have hmore : 0 ≤ excess live s1 := by
        rw [hkept]
        split <;> omega
      obtain ⟨s', hruns, hcount⟩ := ih hready hmore (hrest s1 hrun)
      refine ⟨s', ?_, ?_⟩
      · simp only [performAll, StateT.run_bind, hrun, pure_bind, hruns]
      · rw [hcount, hkept, List.countP_cons]
        push_cast
        ring

/-- **Leak accounting**: after a legal sequence of calls, in which no assertion and no check for a
    double free fails, `heaph_get_alloc_count` is the number of live blocks if and only if no
    `realloc` of a block had the size 0. -/
theorem alloc_count_exact_iff (copy : Copy) (libc : Libc H) (live : H → Finset Ptr)
    (hlaw : libc.Lawful live) (h : H) (hempty : live h = ∅) (calls : List Call)
    (hlegal : LegalRun copy libc live calls (start copy h)) :
    ∃ s, (performAll copy libc calls).run (start copy h) = pure ((), s) ∧
      (heaphGetAllocCount s = (live s.heap).card ↔ ∀ c ∈ calls, c.shrinksToZero = false) := by
  have hzero : excess live (start copy h) = 0 := by
    rw [excess, show (start copy h).heap = h from rfl, hempty]
    rfl
  obtain ⟨s, hrun, hcount⟩ :=
    performAll_run hlaw calls (start_ready copy h) (le_of_eq hzero.symm) hlegal
  refine ⟨s, hrun, ?_⟩
  rw [hzero, zero_add, excess] at hcount
  have hnone : calls.countP Call.shrinksToZero = 0 ↔ ∀ c ∈ calls, c.shrinksToZero = false := by
    simp [List.countP_eq_zero]
  rw [← hnone, heaphGetAllocCount]
  omega

end Accounting

/-! ## A library that never fails -/

/-- A heap whose addresses are used once. -/
structure Arena where
  next : Ptr
  blocks : Finset Ptr
  fresh : ∀ p ∈ blocks, p < next

namespace Arena

def alloc (h : Arena) : Option Ptr × Arena :=
  (some h.next, ⟨h.next + 1, insert h.next h.blocks, fun p hp => by
    rcases Finset.mem_insert.1 hp with rfl | hp
    · exact Nat.lt_succ_self _
    · exact Nat.lt_succ_of_lt (h.fresh p hp)⟩)

/-- A pointer that is no block ends the program with SIGABRT. -/
def release (p : Ptr) (h : Arena) : C Arena :=
  if p ∈ h.blocks then
    pure ⟨h.next, h.blocks.erase p, fun q hq => h.fresh q (Finset.mem_of_mem_erase hq)⟩
  else throw (.exit 134)

/-- Blocks are grown where they are. -/
def libc : Libc Arena where
  malloc _ h := pure h.alloc
  calloc _ _ h := pure h.alloc
  realloc
    | none, _, h => pure h.alloc
    | some p, 0, h => do
      let h ← h.release p
      pure (none, h)
    | some p, _ + 1, h => if p ∈ h.blocks then pure (some p, h) else throw (.exit 134)
  strdup _ h := pure h.alloc
  getline
    | none, cap, h => pure (⟨-1, h.alloc.1, cap⟩, h.alloc.2)
    | some p, cap, h => pure (⟨-1, some p, cap⟩, h)
  free p h := h.release p

theorem alloc_allocates (h : Arena) : Allocates Arena.blocks h h.alloc :=
  ⟨fun hmem => Nat.lt_irrefl _ (h.fresh _ hmem), rfl⟩

theorem keep_moves {h : Arena} {p : Ptr} (hp : p ∈ h.blocks) :
    Moves Arena.blocks p h (some p, h) :=
  ⟨p, rfl, Finset.notMem_erase p h.blocks, (Finset.insert_erase hp).symm⟩

theorem release_gives {h : Arena} {p : Ptr} (hp : p ∈ h.blocks) :
    Gives (h.release p) fun h' => h'.blocks = h.blocks.erase p :=
  ⟨_, if_pos hp, rfl⟩

theorem libc_lawful : libc.Lawful Arena.blocks where
  malloc _ h := ⟨_, rfl, h.alloc_allocates⟩
  calloc _ _ h := ⟨_, rfl, h.alloc_allocates⟩
  strdup _ h := ⟨_, rfl, h.alloc_allocates⟩
  realloc_null _ h := ⟨_, rfl, h.alloc_allocates⟩
  realloc p size h hp hsize := by
    obtain ⟨n, rfl⟩ := Nat.exists_eq_succ_of_ne_zero hsize
    exact ⟨(some p, h), if_pos hp, Or.inl (keep_moves hp)⟩
  realloc_zero p h hp := by
    obtain ⟨h', hrun, hblocks⟩ := release_gives hp
    refine ⟨(none, h'), ?_, rfl, hblocks⟩
    show (h.release p >>= fun h => pure (none, h)) = _
    rw [hrun]
    rfl
  getline_null _ h := ⟨_, rfl, h.alloc_allocates⟩
  getline _ _ _ hp := ⟨_, rfl, keep_moves hp⟩
  free _ _ hp := release_gives hp

/-- An empty heap. -/
def empty : Arena := ⟨1, ∅, fun _ hp => absurd hp (Finset.notMem_empty _)⟩

end Arena

theorem alloc_count_exact_iff_malloc :
    ∃ s, (performAll .utils Arena.libc [.malloc 8, .free (some 1)]).run (start .utils .empty)
        = pure ((), s) ∧
      (heaphGetAllocCount s = s.heap.blocks.card ↔
        ∀ c ∈ [Call.malloc 8, .free (some 1)], c.shrinksToZero = false) :=
  alloc_count_exact_iff .utils Arena.libc Arena.blocks Arena.libc_lawful .empty rfl
    [.malloc 8, .free (some 1)]
    ⟨trivial, fun s' h => by cases h; exact ⟨Finset.mem_insert_self 1 ∅, fun _ _ => trivial⟩⟩

/-- `realloc(malloc(8), 0)`: no block is left, and `alloc_count` is 1. -/
theorem alloc_count_realloc_zero :
    ¬ ∀ (copy : Copy) (H : Type) (libc : Libc H) (live : H → Finset Ptr), libc.Lawful live →
      ∀ h, live h = ∅ → ∀ calls, LegalRun copy libc live calls (start copy h) →
      ∃ s, (performAll copy libc calls).run (start copy h) = pure ((), s) ∧
        heaphGetAllocCount s = (live s.heap).card := by
  intro hall
  obtain ⟨s, hrun, hcount⟩ := hall .utils Arena Arena.libc Arena.blocks Arena.libc_lawful .empty rfl
    [.malloc 8, .realloc (some 1) 0]
    ⟨trivial, fun s' h => by cases h; exact ⟨Finset.mem_insert_self 1 ∅, fun _ _ => trivial⟩⟩
  cases hrun
  exact absurd hcount (by decide)

end SysProg.HeapHelp
