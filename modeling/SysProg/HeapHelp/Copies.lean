import SysProg.HeapHelp.Accounting

set_option autoImplicit false

/-! # The two copies (`utils/heap_help/heap_help.c`, `2/solution/heap_help/heap_help.c`)

The older file counts with a plain counter and checks for a double free after the block is freed; the
newer one initialises itself and checks before. A program of one thread cannot tell them apart by a
result, by `heaph_get_alloc_count` or by where it is stopped. What stops it can differ in one case: the
older file hands a block to the C library before it finds that none is counted, and the C library may
end the program first. -/

namespace SysProg.HeapHelp

/-! ## Programs -/

/-- What a program asks of the wrappers. -/
inductive Query where
  | call (c : Call)
  | allocCount

/-- What it gets back. -/
inductive Reply where
  | ptr (res : Option Ptr)
  | line (res : LineResult)
  | freed
  | count (n : Int)

variable {H : Type}

def reply (copy : Copy) (libc : Libc H) : Query → M H Reply
  | .call (.malloc size) => do
    let res ← malloc copy libc size
    pure (.ptr res)
  | .call (.calloc num size) => do
    let res ← calloc copy libc num size
    pure (.ptr res)
  | .call (.realloc ptr size) => do
    let res ← realloc copy libc ptr size
    pure (.ptr res)
  | .call (.strdup ptr) => do
    let res ← strdup copy libc ptr
    pure (.ptr res)
  | .call (.getline line linecap) => do
    let res ← getline copy libc line linecap
    pure (.line res)
  | .call (.free ptr) => do
    free copy libc ptr
    pure .freed
  | .allocCount => do
    let s ← get
    pure (.count (heaphGetAllocCount s))

/-- A program that decides from the replies so far what to ask next, for at most `n` queries. -/
def ask (copy : Copy) (libc : Libc H) (client : List Reply → Option Query) :
    Nat → List Reply → M H (List Reply)
  | 0, replies => pure replies
  | n + 1, replies =>
    match client replies with
    | none => pure replies
    | some q => do
      let r ← reply copy libc q
      ask copy libc client n (replies ++ [r])

/-! ## Agreement -/

/-- The first file in the state `s` and the second one in the state `t`. -/
structure Same (s t : HeapState H) : Prop where
  utils : Ready .utils s
  solution : Ready .solution t
  heap : s.heap = t.heap
  count : s.allocCount = t.allocCount
  nonneg : 0 ≤ s.allocCount

/-- The first file's check for a double free stops the program, in the second one the C library does. -/
def StopsFirst (libc : Libc H) {A : Type} (x y : C A) : Prop :=
  ∃ p h e, libc.free p h = throw e ∧ x = throw (.exit 1) ∧ y = throw e

/-- From such states both stop in the same way or return the same, in such states, unless the C library
    stops the second one first. -/
def Agree (libc : Libc H) {A : Type} (x y : M H A) : Prop :=
  ∀ s t, Same s t → (∃ e, x.run s = throw e ∧ y.run t = throw e) ∨
    StopsFirst libc (x.run s) (y.run t) ∨
    ∃ a s' t', x.run s = pure (a, s') ∧ y.run t = pure (a, t') ∧ Same s' t'

variable {libc : Libc H}

theorem agree_pure {A : Type} (a : A) : Agree libc (pure a : M H A) (pure a) :=
  fun s t h => Or.inr (Or.inr ⟨a, s, t, rfl, rfl, h⟩)

theorem Agree.bind {A B : Type} {x y : M H A} {f g : A → M H B} (h : Agree libc x y)
    (hfg : ∀ a, Agree libc (f a) (g a)) : Agree libc (x >>= f) (y >>= g) := by
  intro s t hst
  rw [StateT.run_bind, StateT.run_bind]
  rcases h s t hst with ⟨e, hx, hy⟩ | ⟨p, heap, e, hfree, hx, hy⟩ | ⟨a, s', t', hx, hy, hst'⟩
  · exact Or.inl ⟨e, by rw [hx]; rfl, by rw [hy]; rfl⟩
  · exact Or.inr (Or.inl ⟨p, heap, e, hfree, by rw [hx]; rfl, by rw [hy]; rfl⟩)
  · rw [hx, hy]
    exact hfg a s' t' hst'

/-- A wrapper that counts its block when `b` holds of what the library returns. -/
theorem wrapper_agree {A : Type} (f : H → C (A × H)) (b : A → Prop) [DecidablePred b] :
    Agree libc (do
        touch .utils
        let res ← callDefault f
        if b res then allocCountInc
        pure res : M H A) (do
        touch .solution
        let res ← callDefault f
        if b res then allocCountInc
        pure res) := by
  intro s t h
  cases hf : f s.heap with
  | error e =>
      exact Or.inl ⟨e, wrapper_stops b h.utils hf, wrapper_stops b h.solution (h.heap ▸ hf)⟩
  | ok r =>
      obtain ⟨s', hs, hready, hheap, hcount⟩ := wrapper_run b h.utils hf
      obtain ⟨t', ht, hready', hheap', hcount'⟩ := wrapper_run b h.solution (h.heap ▸ hf)
      refine Or.inr (Or.inr ⟨_, s', t', hs, ht, hready, hready', hheap.trans hheap'.symm, ?_, ?_⟩)
      · rw [hcount, hcount', h.count]
      · have hpos := h.nonneg
        rw [hcount]
        split <;> omega

/-- `free` stops both when no block is counted, before or after the block is freed. -/
theorem free_agree (ptr : Option Ptr) :
    Agree libc (free .utils libc ptr) (free .solution libc ptr) := by
  cases ptr with
  | none => exact agree_pure ()
  | some p =>
      intro s t h
      have hinit : t.initialized = true := by simp [h.solution.initialized]
      have hpos := h.nonneg
      have hfirst : s.allocCount = 0 → (free .utils libc (some p)).run s = throw (.exit 1) := by
        intro hzero
        simp only [free, StateT.run_bind, heaphTouch_run h.utils, pure_bind]
        simp [allocCountSub, hzero]
      cases hf : libc.free p s.heap with
      | error e =>
          have hf' : libc.free p t.heap = throw e := h.heap ▸ hf
          have hsecond : (free .solution libc (some p)).run t = throw e := by
            rw [free, StateT.run_bind, callFree_stops hinit hf']
            rfl
          by_cases hzero : s.allocCount = 0
          · exact Or.inr (Or.inl ⟨p, s.heap, e, hf, hfirst hzero, hsecond⟩)
          · refine Or.inl ⟨e, ?_, hsecond⟩
            simp only [free, StateT.run_bind, heaphTouch_run h.utils, pure_bind]
            rw [allocCountSub_run (by simp only; omega), pure_bind]
            exact callFree_stops rfl hf
      | ok heap =>
          have hf' : libc.free p t.heap = pure heap := h.heap ▸ hf
          by_cases hzero : s.allocCount = 0
          · have hzero' : t.allocCount = 0 := h.count.symm.trans hzero
            refine Or.inl ⟨.exit 1, hfirst hzero, ?_⟩
            simp [free, callFree_run hinit hf', hzero']
          · have hne : t.allocCount ≠ 0 := fun he => hzero (h.count.trans he)
            refine Or.inr (Or.inr ⟨(), { s with
                heap := heap, allocCount := s.allocCount - 1, isDone := true, initialized := true },
              { t with heap := heap, allocCount := t.allocCount - 1 }, ?_, ?_,
              ⟨h.utils.unlocked, rfl⟩, ⟨h.solution.unlocked, h.solution.initialized⟩, rfl, ?_, ?_⟩)
            · simp only [free, StateT.run_bind, heaphTouch_run h.utils, pure_bind]
              rw [allocCountSub_run (by simp only; omega), pure_bind]
              exact callFree_run rfl hf
            · simp [free, callFree_run hinit hf', hne]
            · simp only [h.count]
            · simp only
              omega

theorem reply_agree (q : Query) : Agree libc (reply .utils libc q) (reply .solution libc q) := by
  cases q with
  | allocCount =>
      intro s t h
      refine Or.inr (Or.inr ⟨.count s.allocCount, s, t, rfl, ?_, h⟩)
      rw [h.count]
      rfl
  | call c =>
      cases c with
      | malloc size =>
          exact (wrapper_agree (libc.malloc size) (· ≠ none)).bind fun res =>
            agree_pure (Reply.ptr res)
      | calloc num size =>
          exact (wrapper_agree (libc.calloc num size) (· ≠ none)).bind fun res =>
            agree_pure (Reply.ptr res)
      | strdup ptr =>
          exact (wrapper_agree (libc.strdup ptr) (· ≠ none)).bind fun res =>
            agree_pure (Reply.ptr res)
      | realloc ptr size =>
          exact (wrapper_agree (libc.realloc ptr size) fun res => ptr = none ∧ res ≠ none).bind
            fun res => agree_pure (Reply.ptr res)
      | getline line linecap =>
          exact (wrapper_agree (libc.getline line linecap)
            fun res => line = none ∧ res.line ≠ none).bind fun res => agree_pure (Reply.line res)
      | free ptr => exact (free_agree ptr).bind fun _ => agree_pure Reply.freed

theorem ask_agree (client : List Reply → Option Query) (n : Nat) : ∀ replies,
    Agree libc (ask .utils libc client n replies) (ask .solution libc client n replies) := by
  induction n with
  | zero => exact fun replies => agree_pure replies
  | succ n ih =>
      intro replies
      simp only [ask]
      cases client replies with
      | none => exact agree_pure replies
      | some q => exact (reply_agree q).bind fun r => ih (replies ++ [r])

/-- What a program gets from a file in `n` queries: its replies, and the heap and the count it leaves. -/
def outcome (copy : Copy) (libc : Libc H) (h : H) (client : List Reply → Option Query) (n : Nat) :
    C (List Reply × H × Int) :=
  (fun p => (p.1, p.2.heap, heaphGetAllocCount p.2)) <$>
    (ask copy libc client n []).run (start copy h)

/-- **The two copies are the same to a program of one thread**: whatever it asks, legal or not, and
    whatever the C library does, after any number of queries it has the same replies from both, the same
    heap and the same count, or both have stopped it by the same error; only where the C library itself
    stops a `free` for which no block is counted, the first file has called `exit(1)` before. -/
theorem copies_agree (libc : Libc H) (h : H) (client : List Reply → Option Query) (n : Nat) :
    outcome .utils libc h client n = outcome .solution libc h client n ∨
      StopsFirst libc (outcome .utils libc h client n) (outcome .solution libc h client n) := by
  have hsame : Same (start .utils h) (start .solution h) :=
    ⟨start_ready .utils h, start_ready .solution h, rfl, rfl, Int.le_refl 0⟩
  rw [outcome, outcome]
  rcases ask_agree client n [] _ _ hsame with
    ⟨e, hx, hy⟩ | ⟨p, heap, e, hfree, hx, hy⟩ | ⟨replies, s, t, hx, hy, hst⟩
  · exact Or.inl (by rw [hx, hy])
  · exact Or.inr ⟨p, heap, e, hfree, by rw [hx]; rfl, by rw [hy]; rfl⟩
  · refine Or.inl ?_
    rw [hx, hy, map_pure, map_pure, hst.heap, heaphGetAllocCount, heaphGetAllocCount, hst.count]

/-- A block that is freed twice: SIGABRT from the C library in the second file. -/
example : outcome .utils Arena.libc .empty (fun rs => if rs.length = 0 then some (.call (.malloc 8))
      else some (.call (.free (some 1)))) 3 = throw (.exit 1) ∧
    outcome .solution Arena.libc .empty (fun rs => if rs.length = 0 then some (.call (.malloc 8))
      else some (.call (.free (some 1)))) 3 = throw (.exit 134) := ⟨rfl, rfl⟩

/-! ## Without the wrappers -/

/-- What the C library itself does in a call. -/
def plainReply (libc : Libc H) : Call → H → C (Reply × H)
  | .malloc size, h => do
    let r ← libc.malloc size h
    pure (.ptr r.1, r.2)
  | .calloc num size, h => do
    let r ← libc.calloc num size h
    pure (.ptr r.1, r.2)
  | .realloc ptr size, h => do
    let r ← libc.realloc ptr size h
    pure (.ptr r.1, r.2)
  | .strdup ptr, h => do
    let r ← libc.strdup ptr h
    pure (.ptr r.1, r.2)
  | .getline line linecap, h => do
    let r ← libc.getline line linecap h
    pure (.line r.1, r.2)
  | .free none, h => pure (.freed, h)
  | .free (some p), h => do
    let h ← libc.free p h
    pure (.freed, h)

/-- The program without `heap_help`. -/
def askPlain (libc : Libc H) (client : List Reply → Option Call) :
    Nat → List Reply → H → C (List Reply × H)
  | 0, replies, h => pure (replies, h)
  | n + 1, replies, h =>
    match client replies with
    | none => pure (replies, h)
    | some c => do
      let (r, h) ← plainReply libc c h
      askPlain libc client n (replies ++ [r]) h

section Plain

variable {copy : Copy} {s s' : HeapState H}

theorem wrapper_plain {A : Type} {f : H → C (A × H)} {b : A → Prop} [DecidablePred b]
    {g : A → Reply} {r : Reply} (hs : Ready copy s)
    (hrun : ((do
        touch copy
        let res ← callDefault f
        if b res then allocCountInc
        pure res : M H A) >>= fun res => pure (g res)).run s = pure (r, s')) :
    (f s.heap >>= fun r => pure (g r.1, r.2)) = pure (r, s'.heap) ∧ Ready copy s' := by
  cases hf : f s.heap with
  | error e =>
      rw [StateT.run_bind, wrapper_stops b hs hf] at hrun
      cases hrun
  | ok res =>
      obtain ⟨s1, hone, hready, hheap, -⟩ := wrapper_run b hs hf
      rw [StateT.run_bind, hone, pure_bind, StateT.run_pure, pure_inj, Prod.mk.injEq] at hrun
      obtain ⟨rfl, rfl⟩ := hrun
      exact ⟨by rw [hheap]; rfl, hready⟩

theorem free_plain {p : Ptr} (hs : Ready copy s)
    (hrun : (free copy libc (some p)).run s = pure ((), s')) :
    libc.free p s.heap = pure s'.heap ∧ Ready copy s' := by
  cases copy with
  | utils =>
      simp only [free, StateT.run_bind, heaphTouch_run hs, pure_bind] at hrun
      by_cases hpos : 1 ≤ s.allocCount
      · rw [allocCountSub_run (by simpa using hpos), pure_bind] at hrun
        cases hf : libc.free p s.heap with
        | error e => cases hrun.symm.trans (callFree_stops rfl hf)
        | ok heap =>
            have hruns := hrun.symm.trans (callFree_run rfl hf)
            obtain rfl := congrArg Prod.snd ((pure_inj _ _).1 hruns)
            exact ⟨rfl, hs.unlocked, rfl⟩
      · have hexit : (allocCountSub : M H Unit).run
            { s with isDone := true, initialized := true } = throw (.exit 1) := by
          simp [allocCountSub, hpos]
        rw [hexit] at hrun
        cases hrun
  | solution =>
      have hinit : s.initialized = true := by simp [hs.initialized]
      rw [free, StateT.run_bind] at hrun
      cases hf : libc.free p s.heap with
      | error e =>
          rw [callFree_stops hinit hf] at hrun
          cases hrun
      | ok heap =>
          rw [callFree_run hinit hf, pure_bind] at hrun
          by_cases hzero : s.allocCount = 0
          · simp [hzero] at hrun
          · have hgoes : ({ s with heap := heap, allocCount := s.allocCount - 1 } : HeapState H)
                = s' := by
              simpa [hzero] using hrun
            subst hgoes
            exact ⟨rfl, hs.unlocked, hs.initialized⟩

/-- A call that returns does what the C library does. -/
theorem reply_plain {c : Call} {r : Reply} (hs : Ready copy s)
    (hrun : (reply copy libc (.call c)).run s = pure (r, s')) :
    plainReply libc c s.heap = pure (r, s'.heap) ∧ Ready copy s' := by
  cases c with
  | malloc size => exact wrapper_plain (f := libc.malloc size) (b := (· ≠ none)) hs hrun
  | calloc num size => exact wrapper_plain (f := libc.calloc num size) (b := (· ≠ none)) hs hrun
  | strdup ptr => exact wrapper_plain (f := libc.strdup ptr) (b := (· ≠ none)) hs hrun
  | realloc ptr size =>
      exact wrapper_plain (f := libc.realloc ptr size) (b := fun res => ptr = none ∧ res ≠ none) hs
        hrun
  | getline line linecap =>
      exact wrapper_plain (f := libc.getline line linecap)
        (b := fun res => line = none ∧ res.line ≠ none) hs hrun
  | free ptr =>
      cases ptr with
      | none =>
          obtain ⟨rfl, rfl⟩ := Prod.mk.inj ((pure_inj _ _).1 hrun)
          exact ⟨rfl, hs⟩
      | some p =>
          rw [reply, StateT.run_bind] at hrun
          cases hfree : (free copy libc (some p)).run s with
          | error e =>
              rw [hfree] at hrun
              cases hrun
          | ok res =>
              obtain ⟨⟨⟩, s1⟩ := res
              rw [hfree] at hrun
              obtain ⟨rfl, rfl⟩ := Prod.mk.inj ((pure_inj _ _).1 hrun)
              obtain ⟨hheap, hready⟩ := free_plain hs hfree
              exact ⟨by rw [plainReply, hheap]; rfl, hready⟩

theorem ask_plain (client : List Reply → Option Call) (n : Nat) :
    ∀ {replies out : List Reply} {s : HeapState H}, Ready copy s →
      (ask copy libc (fun rs => (client rs).map .call) n replies).run s = pure (out, s') →
      askPlain libc client n replies s.heap = pure (out, s'.heap) := by
  induction n with
  | zero =>
      intro replies out s _ hrun
      obtain ⟨rfl, rfl⟩ := Prod.mk.inj ((pure_inj _ _).1 hrun)
      rfl
  | succ n ih =>
      intro replies out s hs hrun
      rw [ask] at hrun
      rw [askPlain]
      cases hc : client replies with
      | none =>
          rw [hc] at hrun
          obtain ⟨rfl, rfl⟩ := Prod.mk.inj ((pure_inj _ _).1 hrun)
          rfl
      | some c =>
          rw [hc] at hrun
          simp only [Option.map_some, StateT.run_bind] at hrun
          cases hreply : (reply copy libc (.call c)).run s with
          | error e =>
              rw [hreply] at hrun
              cases hrun
          | ok res =>
              obtain ⟨r, s1⟩ := res
              rw [hreply] at hrun
              obtain ⟨hplain, hready⟩ := reply_plain hs hreply
              simp only [hplain, pure_bind]
              exact ih hready hrun

end Plain

/-- **The wrappers are transparent**: a program that is not stopped by the check for a double free gets
    from the wrappers of either file the replies, and leaves the heap, that it would without them. -/
theorem wrappers_transparent (copy : Copy) (libc : Libc H) (h : H)
    (client : List Reply → Option Call) (n : Nat) (replies : List Reply) (s : HeapState H)
    (hrun : (ask copy libc (fun rs => (client rs).map .call) n []).run (start copy h)
      = pure (replies, s)) :
    askPlain libc client n [] h = pure (replies, s.heap) :=
  ask_plain client n (start_ready copy h) hrun

/-- A program that allocates twice and then frees the first block it was given. -/
def twoBlocks : List Reply → Option Call
  | [] => some (.malloc 8)
  | [_] => some (.calloc 1 8)
  | [.ptr p, _] => some (.free p)
  | _ => none

theorem wrappers_transparent_twoBlocks :
    ∃ s, (ask .utils Arena.libc (fun rs => (twoBlocks rs).map .call) 5 []).run (start .utils .empty)
        = pure ([.ptr (some 1), .ptr (some 2), .freed], s) ∧
      askPlain Arena.libc twoBlocks 5 [] .empty
        = pure ([.ptr (some 1), .ptr (some 2), .freed], s.heap) :=
  ⟨_, rfl, wrappers_transparent .utils Arena.libc .empty twoBlocks 5 _ _ rfl⟩

end SysProg.HeapHelp
