import Mathlib.Tactic.Ring

set_option autoImplicit false

/-! # C computations

The part of C every model of this development shares: a computation either returns a value or stops
for one of the reasons of `Stop`, machine integers are `Int`s whose overflow is undefined, and a
`char` is eight bits. -/

namespace SysProg

/-! ## Computations that may stop -/

/-- Why a C computation does not return to its caller. -/
inductive Stop where
  /-- `exit(status)` was called. -/
  | exit (status : Int)
  /-- Undefined behaviour: a bad pointer, an index out of range, a signed overflow. -/
  | undefined
  /-- A loop was still running after the number of iterations its model allows. -/
  | diverge
deriving DecidableEq, Repr

/-- A C computation. -/
abbrev C := Except Stop

/-- A C computation that counts the heap blocks allocated and not yet freed. -/
abbrev Alloc := StateT Int C

/-- A successful allocation of one block. -/
def malloc : Alloc Unit := modify (· + 1)

/-- Freeing one live block. -/
def free : Alloc Unit := modify (· - 1)

@[simp] theorem malloc_run (live : Int) : malloc.run live = pure ((), live + 1) := rfl

@[simp] theorem free_run (live : Int) : free.run live = pure ((), live - 1) := rfl

@[simp] theorem throw_bind {α β : Type} (e : Stop) (f : α → C β) :
    ((throw e : C α) >>= f) = throw e := rfl

@[simp] theorem throw_map {α β : Type} (f : α → β) (e : Stop) :
    (f <$> (throw e : C α)) = throw e := rfl

@[simp] theorem throw_ne_pure {α : Type} (e : Stop) (a : α) : (throw e : C α) ≠ pure a := by
  intro h; cases h

@[simp] theorem pure_inj {α : Type} (a b : α) : (pure a : C α) = pure b ↔ a = b :=
  ⟨fun h => by cases h; rfl, fun h => by rw [h]⟩

/-- A bind returns exactly when its first half does and the second half does on its result. -/
theorem bind_eq_pure {α β : Type} {x : C α} {f : α → C β} {b : β} :
    (x >>= f) = pure b ↔ ∃ a, x = pure a ∧ f a = pure b := by
  cases x with
  | error e =>
      constructor
      · intro h; cases h
      · rintro ⟨a, ha, -⟩; cases ha
  | ok a =>
      constructor
      · intro h; exact ⟨a, rfl, h⟩
      · rintro ⟨a', ha, h⟩; cases ha; exact h

/-! ## Signed 32-bit integers -/

/-- The value of an `int` expression: undefined when it does not fit 32 bits. -/
def int32 (x : Int) : C Int :=
  if -2 ^ 31 ≤ x ∧ x < 2 ^ 31 then pure x else throw .undefined

theorem int32_of_range {x : Int} (hlo : -2 ^ 31 ≤ x) (hhi : x < 2 ^ 31) : int32 x = pure x :=
  if_pos ⟨hlo, hhi⟩

theorem int32_eq_pure {x v : Int} (h : int32 x = pure v) : v = x ∧ -2 ^ 31 ≤ x ∧ x < 2 ^ 31 := by
  unfold int32 at h
  split at h
  · next hrange => exact ⟨((pure_inj _ _).1 h).symm, hrange⟩
  · cases h

/-! ## Arrays -/

/-- Reading `a[i]`: undefined outside the array. -/
def load {α : Type} (a : List α) (i : Int) : C α :=
  if 0 ≤ i then
    match a[i.toNat]? with
    | some v => pure v
    | none => throw .undefined
  else throw .undefined

/-- Writing `a[i]`: undefined outside the array. -/
def store {α : Type} (a : List α) (i : Int) (v : α) : C (List α) :=
  if 0 ≤ i ∧ i.toNat < a.length then pure (a.set i.toNat v) else throw .undefined

theorem load_run {α : Type} {a : List α} {i : Nat} {v : α} (h : a[i]? = some v) :
    load a i = pure v := by
  rw [load, if_pos (Int.natCast_nonneg i), Int.toNat_natCast, h]

theorem store_run {α : Type} {a : List α} {i : Nat} (h : i < a.length) (v : α) :
    store a i v = pure (a.set i v) := by
  rw [store, Int.toNat_natCast, if_pos ⟨Int.natCast_nonneg i, h⟩]

theorem load_eq_pure {α : Type} {a : List α} {i : Nat} {v : α} (h : load a i = pure v) :
    a[i]? = some v := by
  rw [load, if_pos (Int.natCast_nonneg i), Int.toNat_natCast] at h
  split at h
  · next w hw => rw [hw, (pure_inj _ _).1 h]
  · cases h

/-- What is read is an element of the array. -/
theorem load_mem {α : Type} {a : List α} {i : Int} {v : α} (h : load a i = pure v) : v ∈ a := by
  unfold load at h
  split at h
  · split at h
    · next w hw =>
        rw [← (pure_inj _ _).1 h]
        exact List.mem_of_getElem? hw
    · cases h
  · cases h

/-- The elements after a write: the one written, and old ones. -/
theorem store_mem {α : Type} {a a' : List α} {i : Int} {v x : α} (h : store a i v = pure a')
    (hx : x ∈ a') : x = v ∨ x ∈ a := by
  unfold store at h
  split at h
  · rw [← (pure_inj _ _).1 h] at hx
    exact (List.mem_or_eq_of_mem_set hx).symm
  · cases h

theorem store_eq_pure {α : Type} {a a' : List α} {i : Nat} {v : α} (h : store a i v = pure a') :
    a' = a.set i v ∧ i < a.length := by
  unfold store at h
  split at h
  · next hi =>
      rw [Int.toNat_natCast] at h hi
      exact ⟨((pure_inj _ _).1 h).symm, hi.2⟩
  · cases h

/-! ## Characters and strings -/

/-- A `char`, as its eight bits. -/
abbrev CChar := UInt8

/-- The value of a `char` after integer promotion; `char` is signed. -/
def CChar.promote (c : CChar) : Int := c.toInt8.toInt

/-- The conversion of an `int` to `char`. -/
def CChar.ofInt (i : Int) : CChar := UInt8.ofNat (i % 256).toNat

@[simp] theorem CChar.ofInt_toNat (c : CChar) : CChar.ofInt c.toNat = c := by
  have h : ((c.toNat : Int) % 256).toNat = c.toNat := by
    have := c.toNat_lt
    omega
  rw [CChar.ofInt, h, UInt8.ofNat_toNat]

@[simp] abbrev chNul : CChar := 0
@[simp] abbrev chEot : CChar := 4          -- CTRL-D
@[simp] abbrev chTab : CChar := 9
@[simp] abbrev chNewline : CChar := 10
@[simp] abbrev chReturn : CChar := 13
@[simp] abbrev chSpace : CChar := 32
@[simp] abbrev chDquote : CChar := 34      -- "
@[simp] abbrev chHash : CChar := 35        -- #
@[simp] abbrev chAmp : CChar := 38         -- &
@[simp] abbrev chSquote : CChar := 39      -- '
@[simp] abbrev chGt : CChar := 62          -- >
@[simp] abbrev chBackslash : CChar := 92   -- \
@[simp] abbrev chN : CChar := 110          -- n
@[simp] abbrev chR : CChar := 114          -- r
@[simp] abbrev chS : CChar := 115          -- s
@[simp] abbrev chT : CChar := 116          -- t
@[simp] abbrev chPipe : CChar := 124       -- |

/-- The bytes of an ASCII text. -/
def ascii (s : List Char) : List CChar := s.map Char.toUInt8

/-- A text without NUL, i.e. one that a C string can hold. -/
def NulFree (s : List CChar) : Prop := ∀ c ∈ s, c ≠ chNul

/-- What holds of the characters of a text is decided by going through the text, not through all
    characters. -/
instance (priority := 1100) decidableForallChar (p : CChar → Prop) [DecidablePred p]
    (s : List CChar) : Decidable (∀ c ∈ s, p c) := List.decidableBAll p s

instance (s : List CChar) : Decidable (NulFree s) := inferInstanceAs (Decidable (∀ c ∈ s, _))

@[simp] theorem nulFree_nil : NulFree [] := by simp [NulFree]

@[simp] theorem nulFree_cons {c : CChar} {s : List CChar} :
    NulFree (c :: s) ↔ c ≠ chNul ∧ NulFree s := by simp [NulFree]

@[simp] theorem nulFree_append {s t : List CChar} :
    NulFree (s ++ t) ↔ NulFree s ∧ NulFree t := by
  simp only [NulFree, List.mem_append]
  exact ⟨fun h => ⟨fun c hc => h c (Or.inl hc), fun c hc => h c (Or.inr hc)⟩,
    fun h c hc => hc.elim (h.1 c) (h.2 c)⟩

/-- The characters of a `char` array up to its first NUL: what `strcmp` and `strdup` see. -/
def cstr : List CChar → List CChar
  | [] => []
  | c :: rest => if c = chNul then [] else c :: cstr rest

theorem cstr_append_nul {s : List CChar} (hs : NulFree s) (rest : List CChar) :
    cstr (s ++ chNul :: rest) = s := by
  induction s with
  | nil => rfl
  | cons c s ih =>
      obtain ⟨hc, hs⟩ := nulFree_cons.1 hs
      rw [List.cons_append, cstr, if_neg hc, ih hs]

theorem cstr_of_nulFree {s : List CChar} (hs : NulFree s) : cstr s = s := by
  induction s with
  | nil => rfl
  | cons c s ih =>
      obtain ⟨hc, hs⟩ := nulFree_cons.1 hs
      rw [cstr, if_neg hc, ih hs]

theorem cstr_nulFree (buf : List CChar) : NulFree (cstr buf) := by
  induction buf with
  | nil => simp [cstr]
  | cons c rest ih =>
      rw [cstr]
      split
      · exact nulFree_nil
      · next hc => exact nulFree_cons.2 ⟨hc, ih⟩

/-- Reading `buf[i]`: undefined beyond the array. -/
def charAt (buf : List CChar) (i : Nat) : Alloc CChar :=
  match buf[i]? with
  | some c => pure c
  | none => throw .undefined

theorem charAt_run {buf : List CChar} {i : Nat} {c : CChar} (h : buf[i]? = some c) (live : Int) :
    (charAt buf i).run live = pure (c, live) := by
  simp [charAt, h]

/-- `strlen`: undefined when the array holds no NUL. -/
def strlen : List CChar → Alloc Nat
  | [] => throw .undefined
  | c :: rest => if c = chNul then pure 0 else do
      let n ← strlen rest
      pure (n + 1)

theorem strlen_append_nul {s : List CChar} (hs : NulFree s) (rest : List CChar) :
    strlen (s ++ chNul :: rest) = pure s.length := by
  induction s with
  | nil => rfl
  | cons c s ih =>
      obtain ⟨hc, hs⟩ := nulFree_cons.1 hs
      rw [List.cons_append, strlen, if_neg hc, ih hs, pure_bind, List.length_cons]

end SysProg
