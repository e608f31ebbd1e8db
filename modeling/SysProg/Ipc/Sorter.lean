import Mathlib.Data.List.Sort
import SysProg.MergeSort.ReadLoop

set_option autoImplicit false

/-! # The sorters of `lecture_examples/7_ipc`

Three programs sort the numbers of each of their files and put the parts behind one another:
`1_simple_sort.c` in one process, `2_parallel_sort.c` and `3_mem_sort.c` with a worker process for each
file, that hands its part over as bytes. Here is what they share: `sorter` up to the transfer, the
bytes of the two messages, and the sizes `main` asks for. -/

namespace SysProg.Ipc

open MergeSort

/-! ## `sorter` -/

/-- The loop of `sorter` that reads the numbers: unlike `read_file` it ends where `fscanf` does not
    convert. Every number takes a byte of the stream. -/
def sorterLoop : Nat → List CChar → List Int → Int → C (List Int)
  | 0, _, _, _ => throw .diverge
  | fuel + 1, file, array, capacity =>
    if capacity ≤ array.length then throw .undefined
    else do
      let (status, file) ← fscanf file
      match status with
      | .value v => do
        let array := array ++ [v]
        let size ← int32 array.length
        let capacity ← grow size capacity
        sorterLoop fuel file array capacity
      | _ => pure array

def cmp (a b : Int) : C Int := int32 (a - b)

/-- A comparison finds `a` not behind `b`. -/
def inOrder (cmp : Int → Int → C Int) (a b : Int) : Bool :=
  match cmp a b with
  | .ok d => d ≤ 0
  | .error _ => false

/-- `qsort`. The pairs it compares are its own choice, so it is undefined when a comparison is. -/
def qsort (cmp : Int → Int → C Int) (vs : List Int) : C (List Int) :=
  if vs.all fun a => vs.all fun b => (cmp a b).isOk then pure (vs.mergeSort (inOrder cmp))
  else throw .undefined

/-- The array `sorter` has before it hands it over. -/
def sorter (env : Env) (filename : List CChar) : C (List Int) :=
  match env.content filename with
  | none => throw .undefined
  | some content => do
    let array ← sorterLoop (content.length + 1) content [] 1024
    qsort cmp array

/-- The end of `main`: the sum of the sizes, and the arrays behind one another. -/
def totalArray (arrays : List (List Int)) : C (List Int) := do
  let _ ← arrays.foldlM (fun total (array : List Int) => int32 (total + array.length)) 0
  pure arrays.flatten

/-- `main` of `1_simple_sort.c`. -/
def simpleSort (env : Env) (names : List (List CChar)) : C (List Int) := do
  let arrays ← names.mapM (sorter env)
  totalArray arrays

theorem sorterLoop_range {fuel : Nat} {file : List CChar} {array array' : List Int} {capacity : Int}
    (harray : ∀ v ∈ array, -2 ^ 31 ≤ v ∧ v < 2 ^ 31)
    (h : sorterLoop fuel file array capacity = pure array') :
    ∀ v ∈ array', -2 ^ 31 ≤ v ∧ v < 2 ^ 31 := by
  induction fuel generalizing file array capacity with
  | zero => cases h
  | succ fuel ih =>
      rw [sorterLoop] at h
      split at h
      · cases h
      · obtain ⟨⟨status, file'⟩, hscan, h⟩ := bind_eq_pure.1 h
        cases status with
        | value v =>
            obtain ⟨size, -, h⟩ := bind_eq_pure.1 h
            obtain ⟨capacity', -, h⟩ := bind_eq_pure.1 h
            refine ih (fun w hw => ?_) h
            rcases List.mem_append.1 hw with hw | hw
            · exact harray w hw
            · obtain rfl := List.mem_singleton.1 hw
              rcases fscanf_cases hscan with ⟨hs, -⟩ | ⟨hs, -⟩ | ⟨_, _, _, hs, -, -, -, hlo, hhi, -⟩
              · cases hs
              · cases hs
              · cases hs
                exact ⟨hlo, hhi⟩
        | mismatch =>
            obtain rfl := (pure_inj _ _).1 h
            exact harray
        | eof =>
            obtain rfl := (pure_inj _ _).1 h
            exact harray

/-- The numbers of a sorter fit `int`. -/
theorem sorter_range {env : Env} {filename : List CChar} {array : List Int}
    (h : sorter env filename = pure array) : ∀ v ∈ array, -2 ^ 31 ≤ v ∧ v < 2 ^ 31 := by
  unfold sorter at h
  split at h
  · cases h
  · obtain ⟨read, hloop, h⟩ := bind_eq_pure.1 h
    unfold qsort at h
    split at h
    · rw [← (pure_inj _ _).1 h]
      intro v hv
      exact sorterLoop_range (by simp) hloop v ((List.mergeSort_perm _ _).mem_iff.1 hv)
    · cases h

/-! ## Integers as bytes -/

/-- The four bytes of an `int`, the lowest one first. -/
def intBytes (v : Int) : List CChar :=
  [.ofInt v, .ofInt (v / 256), .ofInt (v / 65536), .ofInt (v / 16777216)]

/-- The `int` of four bytes. -/
def bytesInt (a b c d : CChar) : Int :=
  let n : Int := a.toNat + 256 * b.toNat + 65536 * c.toNat + 16777216 * d.toNat
  if n < 2 ^ 31 then n else n - 2 ^ 32

/-- The integers of an array of bytes. -/
def ints : List CChar → List Int
  | a :: b :: c :: d :: bytes => bytesInt a b c d :: ints bytes
  | _ => []

theorem CChar.ofInt_nat (v : Int) : ((CChar.ofInt v).toNat : Int) = v % 256 := by
  rw [CChar.ofInt, UInt8.toNat_ofNat']
  omega

theorem bytesInt_intBytes {v : Int} (hlo : -2 ^ 31 ≤ v) (hhi : v < 2 ^ 31) :
    bytesInt (.ofInt v) (.ofInt (v / 256)) (.ofInt (v / 65536)) (.ofInt (v / 16777216)) = v := by
  have h0 := CChar.ofInt_nat v
  have h1 := CChar.ofInt_nat (v / 256)
  have h2 := CChar.ofInt_nat (v / 65536)
  have h3 := CChar.ofInt_nat (v / 16777216)
  unfold bytesInt
  dsimp only
  rw [h0, h1, h2, h3]
  split <;> omega

theorem length_flatMap_intBytes (vs : List Int) : (vs.flatMap intBytes).length = 4 * vs.length := by
  induction vs with
  | nil => rfl
  | cons v vs ih =>
      rw [List.flatMap_cons, List.length_append, ih, List.length_cons]
      show 4 + 4 * vs.length = 4 * (vs.length + 1)
      omega

/-- The bytes of an array are read back as the array. -/
theorem ints_flatMap_intBytes {vs : List Int} (h : ∀ v ∈ vs, -2 ^ 31 ≤ v ∧ v < 2 ^ 31) :
    ints (vs.flatMap intBytes) = vs := by
  induction vs with
  | nil => rfl
  | cons v vs ih =>
      obtain ⟨⟨hlo, hhi⟩, hvs⟩ := List.forall_mem_cons.1 h
      show bytesInt _ _ _ _ :: ints (vs.flatMap intBytes) = v :: vs
      rw [bytesInt_intBytes hlo hhi, ih hvs]

/-! ## The two messages of a worker -/

/-- What a worker hands over: its `size`, and its `array`. -/
def messages (array : List Int) : List (List CChar) := [intBytes array.length, array.flatMap intBytes]

/-- How many bytes `main` asks for next, after the messages it got from a worker: first for
    `w->size`, then for the array. -/
def ask : List (List CChar) → Option Nat
  | [] => some 4
  | [size] => some (4 * (ints size).headD 0).toNat
  | _ => none

/-- `w->array`, when `main` has got both messages. -/
def array (got : List (List CChar)) : List Int := ints (got.getD 1 [])

/-- A reader that asks for each of the messages in turn. -/
structure Asks (ask : List (List CChar) → Option Nat) (msgs : List (List CChar)) : Prop where
  next : ∀ a m b, msgs = a ++ m :: b → ask a = some m.length
  last : ask msgs = none

/-- A reader has got all of `msgs` but `left`, of whose first message it has `dst` already. -/
def At (msgs left got : List (List CChar)) (dst : List CChar) : Prop :=
  match left with
  | [] => got = msgs ∧ dst = []
  | m :: ms => got ++ (dst ++ m) :: ms = msgs

theorem at_call {msgs ms got : List (List CChar)} (h : got ++ ms = msgs) : At msgs ms got [] := by
  cases ms with
  | nil => exact ⟨by rwa [List.append_nil] at h, rfl⟩
  | cons m ms => exact h

/-- What a reader asks for in front of the messages `ms`. -/
theorem Asks.ask_eq {ask : List (List CChar) → Option Nat} {msgs ms got : List (List CChar)}
    (hask : Asks ask msgs) (h : got ++ ms = msgs) : ask got = ms.head?.map List.length := by
  subst h
  cases ms with
  | nil =>
      have hlast := hask.last
      rwa [List.append_nil] at hlast
  | cons m ms => exact hask.next got m ms rfl

/-- `main` asks for the sizes of what the worker hands over. -/
theorem asks_messages {vs : List Int} (hsize : 4 * vs.length < 2 ^ 31) :
    Asks ask (messages vs) := by
  refine ⟨?_, rfl⟩
  rintro a m b h
  rcases a with _ | ⟨x, _ | ⟨y, a⟩⟩
  · obtain ⟨rfl, -⟩ := List.cons.inj h
    rfl
  · obtain ⟨rfl, hrest⟩ := List.cons.inj h
    obtain ⟨rfl, -⟩ := List.cons.inj hrest
    have hread : ints (intBytes (vs.length : Int)) = [(vs.length : Int)] := by
      have hrange : ∀ v ∈ [(vs.length : Int)], -2 ^ 31 ≤ v ∧ v < 2 ^ 31 := by
        simp only [List.mem_singleton, forall_eq]
        omega
      exact ints_flatMap_intBytes hrange
    rw [ask, hread, length_flatMap_intBytes, List.headD_cons]
    rfl
  · have hlen := congrArg List.length h
    simp [messages] at hlen

theorem array_messages {vs : List Int} (h : ∀ v ∈ vs, -2 ^ 31 ≤ v ∧ v < 2 ^ 31) :
    array (messages vs) = vs := ints_flatMap_intBytes h

end SysProg.Ipc
