import SysProg.Ipc.Sorter
import SysProg.Lib.Collect

set_option autoImplicit false

/-! # Messages through shared memory (`lecture_examples/7_ipc/3_mem_sort.c`)

`write_to_shared_mem` and `read_from_shared_mem` step by step, in two processes that share a region:
each access of the flags `is_readable` and `is_writable`, and each byte that `memcpy` copies, is one
step. A message that does not fit the region goes over in several pieces. -/

namespace SysProg.Ipc

/-! ## The two processes -/

/-- `MEM_SIZE - MEM_META_SIZE`, the bytes of a region behind its two flags. -/
def memSize : Nat := 65536 - 2

/-- How many bytes of `size` are copied at once. -/
def toCopy (size : Nat) : Nat := if memSize > size then size else memSize

theorem toCopy_le (size : Nat) : toCopy size ≤ size := by
  unfold toCopy
  split <;> omega

theorem toCopy_le_memSize (size : Nat) : toCopy size ≤ memSize := by
  unfold toCopy
  split <;> omega

theorem toCopy_pos (size : Nat) (h : 0 < size) : 0 < toCopy size := by
  unfold toCopy
  split
  · exact h
  · exact Nat.succ_pos _

/-- The next access of a process to its region. -/
inductive CopyPc where
  /-- The load of the flag that the process waits for. -/
  | load
  /-- `memcpy`, after `i` bytes. -/
  | copy (i : Nat)
  /-- The store that clears this flag. -/
  | clear
  /-- The store that sets the flag of the other process. -/
  | set
  /-- The last call has returned. -/
  | returned
deriving DecidableEq

/-- A process in `write_to_shared_mem`, with `src` still to copy, and the messages of its calls after
    this one. -/
structure Writer where
  pc : CopyPc
  src : List CChar
  calls : List (List CChar)

/-- A process in `read_from_shared_mem`, with `size` bytes still to copy behind those of `dst`, and the
    messages it got by its calls before. -/
structure Reader where
  pc : CopyPc
  size : Nat
  dst : List CChar
  got : List (List CChar)

/-- A region and the two processes that share it. -/
structure Region where
  isReadable : Bool
  isWritable : Bool
  mem : Fin memSize → CChar
  writer : Writer
  reader : Reader

/-- The next call of `write_to_shared_mem`, if there is one. -/
def Writer.call : List (List CChar) → Writer
  | [] => ⟨.returned, [], []⟩
  | src :: calls => ⟨.load, src, calls⟩

/-- The next call of `read_from_shared_mem`, if there is one. -/
def Reader.call (ask : List (List CChar) → Option Nat) (got : List (List CChar)) : Reader :=
  match ask got with
  | none => ⟨.returned, 0, [], got⟩
  | some size => ⟨.load, size, [], got⟩

/-- The next step of the writer. -/
def writeStep (s : Region) : Option Region :=
  match s.writer.pc with
  | .load => some (if s.isWritable then { s with writer := { s.writer with pc := .copy 0 } } else s)
  | .copy i =>
    if h : i < toCopy s.writer.src.length then
      let p : Fin memSize := ⟨i, h.trans_le (toCopy_le_memSize _)⟩
      let c := s.writer.src.get ⟨i, h.trans_le (toCopy_le _)⟩
      some { s with mem := Function.update s.mem p c, writer := { s.writer with pc := .copy (i + 1) } }
    else
      let src := s.writer.src.drop (toCopy s.writer.src.length)
      some { s with writer := { s.writer with pc := .clear, src := src } }
  | .clear => some { s with isWritable := false, writer := { s.writer with pc := .set } }
  | .set =>
    let writer := if s.writer.src.length = 0 then .call s.writer.calls else { s.writer with pc := .load }
    some { s with isReadable := true, writer := writer }
  | .returned => none

/-- The next step of the reader, that `ask` tells the size of each call. -/
def readStep (ask : List (List CChar) → Option Nat) (s : Region) : Option Region :=
  match s.reader.pc with
  | .load => some (if s.isReadable then { s with reader := { s.reader with pc := .copy 0 } } else s)
  | .copy i =>
    if h : i < toCopy s.reader.size then
      let c := s.mem ⟨i, h.trans_le (toCopy_le_memSize _)⟩
      some { s with reader := { s.reader with pc := .copy (i + 1), dst := s.reader.dst ++ [c] } }
    else
      let size := s.reader.size - toCopy s.reader.size
      some { s with reader := { s.reader with pc := .clear, size := size } }
  | .clear => some { s with isReadable := false, reader := { s.reader with pc := .set } }
  | .set =>
    let reader :=
      if s.reader.size = 0 then .call ask (s.reader.got ++ [s.reader.dst])
      else { s.reader with pc := .load }
    some { s with isWritable := true, reader := reader }
  | .returned => none

/-- A new region, and a writer that is about to send `msgs`. -/
def Region.start (ask : List (List CChar) → Option Nat) (msgs : List (List CChar)) : Region :=
  { isReadable := false, isWritable := true, mem := fun _ => 0, writer := .call msgs,
    reader := .call ask [] }

/-! ## How far the transfer is -/

/-- What is left of some messages after the next piece. -/
def advance : List (List CChar) → List (List CChar)
  | [] => []
  | m :: ms => if m.drop (toCopy m.length) = [] then ms else m.drop (toCopy m.length) :: ms

/-- A reader that has got all but `left`, in front of its next load. -/
def Reader.resume (left got : List (List CChar)) (dst : List CChar) : Reader :=
  match left with
  | [] => ⟨.returned, 0, [], got⟩
  | m :: _ => ⟨.load, m.length, dst, got⟩

/-- The first `i` bytes of the region are those of `m`. -/
def Region.Holds (mem : Fin memSize → CChar) (m : List CChar) (i : Nat) : Prop :=
  ∀ (j : Fin memSize), (j : Nat) < i → m[(j : Nat)]? = some (mem j)

/-- More steps than the two processes still make, in front of a piece. -/
def cost (left : List (List CChar)) : Nat := (left.map fun m => 10 * m.length + 10).sum

/-- How far the transfer of `msgs` is, with a bound on the steps that are left. -/
inductive Phase (msgs : List (List CChar)) : Nat → Region → Prop
  | empty (left got : List (List CChar)) (dst : List CChar) (mem : Fin memSize → CChar)
      (hat : At msgs left got dst) :
      Phase msgs (cost left) ⟨false, true, mem, .call left, .resume left got dst⟩
  | writing (m : List CChar) (ms got : List (List CChar)) (dst : List CChar) (i : Nat)
      (mem : Fin memSize → CChar) (hat : At msgs (m :: ms) got dst) (hi : i ≤ toCopy m.length)
      (hmem : Region.Holds mem m i) :
      Phase msgs (cost (advance (m :: ms)) + (2 * toCopy m.length + 7 - i))
        ⟨false, true, mem, ⟨.copy i, m, ms⟩, .resume (m :: ms) got dst⟩
  | written (m : List CChar) (ms got : List (List CChar)) (dst : List CChar)
      (mem : Fin memSize → CChar) (hat : At msgs (m :: ms) got dst)
      (hmem : Region.Holds mem m (toCopy m.length)) :
      Phase msgs (cost (advance (m :: ms)) + (toCopy m.length + 6))
        ⟨false, true, mem, ⟨.clear, m.drop (toCopy m.length), ms⟩, .resume (m :: ms) got dst⟩
  | offering (m : List CChar) (ms got : List (List CChar)) (dst : List CChar)
      (mem : Fin memSize → CChar) (hat : At msgs (m :: ms) got dst)
      (hmem : Region.Holds mem m (toCopy m.length)) :
      Phase msgs (cost (advance (m :: ms)) + (toCopy m.length + 5))
        ⟨false, false, mem, ⟨.set, m.drop (toCopy m.length), ms⟩, .resume (m :: ms) got dst⟩
  | full (m : List CChar) (ms got : List (List CChar)) (dst : List CChar)
      (mem : Fin memSize → CChar) (hat : At msgs (m :: ms) got dst)
      (hmem : Region.Holds mem m (toCopy m.length)) :
      Phase msgs (cost (advance (m :: ms)) + (toCopy m.length + 4))
        ⟨true, false, mem, .call (advance (m :: ms)), .resume (m :: ms) got dst⟩
  | reading (m : List CChar) (ms got : List (List CChar)) (dst : List CChar) (i : Nat)
      (mem : Fin memSize → CChar) (hat : At msgs (m :: ms) got dst) (hi : i ≤ toCopy m.length)
      (hmem : Region.Holds mem m (toCopy m.length)) :
      Phase msgs (cost (advance (m :: ms)) + (toCopy m.length + 3 - i))
        ⟨true, false, mem, .call (advance (m :: ms)), ⟨.copy i, m.length, dst ++ m.take i, got⟩⟩
  | taken (m : List CChar) (ms got : List (List CChar)) (dst : List CChar)
      (mem : Fin memSize → CChar) (hat : At msgs (m :: ms) got dst) :
      Phase msgs (cost (advance (m :: ms)) + 2)
        ⟨true, false, mem, .call (advance (m :: ms)),
          ⟨.clear, m.length - toCopy m.length, dst ++ m.take (toCopy m.length), got⟩⟩
  | returning (m : List CChar) (ms got : List (List CChar)) (dst : List CChar)
      (mem : Fin memSize → CChar) (hat : At msgs (m :: ms) got dst) :
      Phase msgs (cost (advance (m :: ms)) + 1)
        ⟨false, false, mem, .call (advance (m :: ms)),
          ⟨.set, m.length - toCopy m.length, dst ++ m.take (toCopy m.length), got⟩⟩

section Steps

variable {ask : List (List CChar) → Option Nat} {msgs ms got : List (List CChar)} {m dst : List CChar}
  {r : Nat} {s s' : Region}

theorem advance_nil (h : m.length ≤ toCopy m.length) : advance (m :: ms) = ms := by
  rw [advance, if_pos (List.drop_eq_nil_iff.2 h)]

theorem advance_cons (h : toCopy m.length < m.length) :
    advance (m :: ms) = m.drop (toCopy m.length) :: ms := by
  rw [advance, if_neg fun hnil => ?_]
  have := List.drop_eq_nil_iff.1 hnil
  omega

/-- A piece and the steps that copy it cost less than they take off. -/
theorem cost_advance (m : List CChar) (ms : List (List CChar)) :
    cost (advance (m :: ms)) + (2 * toCopy m.length + 7) < cost (m :: ms) := by
  have hcons : ∀ l : List CChar, cost (l :: ms) = 10 * l.length + 10 + cost ms := fun _ => List.sum_cons
  have hle := toCopy_le m.length
  rcases Nat.lt_or_ge (toCopy m.length) m.length with hlt | hge
  · have hpos := toCopy_pos m.length (by omega)
    rw [advance_cons hlt, hcons, hcons, List.length_drop]
    omega
  · rw [advance_nil hge, hcons]
    omega

/-- What the writer goes on with after a piece. -/
theorem call_advance :
    (if (m.drop (toCopy m.length)).length = 0 then Writer.call ms
      else ⟨.load, m.drop (toCopy m.length), ms⟩) = .call (advance (m :: ms)) := by
  rw [List.length_drop]
  rcases Nat.lt_or_ge (toCopy m.length) m.length with hlt | hge
  · rw [if_neg (by omega), advance_cons hlt]
    rfl
  · rw [if_pos (by omega), advance_nil hge]

/-- A reader that has got all but `ms`, in front of its next call. -/
theorem call_resume (hask : Asks ask msgs) (h : got ++ ms = msgs) :
    Reader.call ask got = .resume ms got [] := by
  have hnext := hask.ask_eq h
  cases ms with
  | nil => rw [Reader.call, hnext]; rfl
  | cons m ms => rw [Reader.call, hnext]; rfl

/-- What the reader goes on with after a piece. -/
theorem resume_advance (hask : Asks ask msgs) (h : At msgs (m :: ms) got dst) :
    ∃ got' dst', At msgs (advance (m :: ms)) got' dst' ∧
      (if m.length - toCopy m.length = 0 then
          Reader.call ask (got ++ [dst ++ m.take (toCopy m.length)])
        else ⟨.load, m.length - toCopy m.length, dst ++ m.take (toCopy m.length), got⟩)
        = Reader.resume (advance (m :: ms)) got' dst' := by
  rcases Nat.lt_or_ge (toCopy m.length) m.length with hlt | hge
  · refine ⟨got, dst ++ m.take (toCopy m.length), ?_, ?_⟩
    · rw [advance_cons hlt, At, List.append_assoc, List.take_append_drop]
      exact h
    · rw [if_neg (by omega), advance_cons hlt, Reader.resume, List.length_drop]
  · have hgot : (got ++ [dst ++ m]) ++ ms = msgs := by
      rw [List.append_assoc]
      exact h
    refine ⟨got ++ [dst ++ m], [], ?_, ?_⟩
    · rw [advance_nil hge]
      exact at_call hgot
    · rw [if_pos (by omega), advance_nil hge, List.take_of_length_le hge]
      exact call_resume hask hgot

/-- The writer waits for the region, or has returned. -/
theorem writeStep_waits {left : List (List CChar)} (hw : s.isWritable = false)
    (hcall : s.writer = .call left) (hstep : writeStep s = some s') : s' = s := by
  obtain ⟨readable, writable, mem, writer, reader⟩ := s
  obtain rfl : writable = false := hw
  obtain rfl : writer = .call left := hcall
  cases left with
  | nil => cases hstep
  | cons m ms => exact (Option.some.inj hstep).symm

/-- The reader waits for the region, or has returned. -/
theorem readStep_waits (left got : List (List CChar)) (dst : List CChar) (hr : s.isReadable = false)
    (hresume : s.reader = .resume left got dst) (hstep : readStep ask s = some s') : s' = s := by
  obtain ⟨readable, writable, mem, writer, reader⟩ := s
  obtain rfl : readable = false := hr
  obtain rfl : reader = .resume left got dst := hresume
  cases left with
  | nil => cases hstep
  | cons m ms => exact (Option.some.inj hstep).symm

/-- **A step of the writer.** -/
theorem writeStep_phase (h : Phase msgs r s) (hstep : writeStep s = some s') :
    s' = s ∨ ∃ r' < r, Phase msgs r' s' := by
  cases h with
  | empty left got dst mem hat =>
      cases left with
      | nil => cases hstep
      | cons m ms =>
          obtain rfl := Option.some.inj hstep
          exact Or.inr ⟨_, cost_advance m ms, .writing m ms got dst 0 mem hat (Nat.zero_le _)
            fun j hj => absurd hj (Nat.not_lt_zero _)⟩
  | writing m ms got dst i mem hat hi hmem =>
      simp only [writeStep] at hstep
      split at hstep
      · next hlt =>
          obtain rfl := Option.some.inj hstep
          refine Or.inr ⟨_, ?_, .writing m ms got dst (i + 1) _ hat hlt fun j hj => ?_⟩
          · omega
          · by_cases hij : (j : Nat) = i
            · subst hij
              rw [Function.update_self]
              exact List.getElem?_eq_getElem _
            · rw [Function.update_of_ne fun he => hij (congrArg Fin.val he)]
              exact hmem j (by omega)
      · next hge =>
          obtain rfl : i = toCopy m.length := by omega
          obtain rfl := Option.some.inj hstep
          exact Or.inr ⟨_, by omega, .written m ms got dst mem hat hmem⟩
  | written m ms got dst mem hat hmem =>
      obtain rfl := Option.some.inj hstep
      exact Or.inr ⟨_, by omega, .offering m ms got dst mem hat hmem⟩
  | offering m ms got dst mem hat hmem =>
      obtain rfl := Option.some.inj hstep
      have hnext := Phase.full m ms got dst mem hat hmem
      rw [← call_advance] at hnext
      exact Or.inr ⟨_, by omega, hnext⟩
  | full | reading | taken | returning => exact Or.inl (writeStep_waits rfl rfl hstep)

/-- **A step of the reader.** -/
theorem readStep_phase (hask : Asks ask msgs) (h : Phase msgs r s)
    (hstep : readStep ask s = some s') : s' = s ∨ ∃ r' < r, Phase msgs r' s' := by
  cases h with
  | full m ms got dst mem hat hmem =>
      obtain rfl := Option.some.inj hstep
      have hnext := Phase.reading m ms got dst 0 mem hat (Nat.zero_le _) hmem
      rw [List.take_zero, List.append_nil] at hnext
      exact Or.inr ⟨_, by omega, hnext⟩
  | reading m ms got dst i mem hat hi hmem =>
      simp only [readStep] at hstep
      split at hstep
      · next hlt =>
          obtain rfl := Option.some.inj hstep
          have hnext := Phase.reading m ms got dst (i + 1) mem hat hlt hmem
          have hc := hmem ⟨i, hlt.trans_le (toCopy_le_memSize _)⟩ hlt
          rw [List.take_add_one, hc, Option.toList_some, ← List.append_assoc] at hnext
          exact Or.inr ⟨_, by omega, hnext⟩
      · next hge =>
          obtain rfl : i = toCopy m.length := by omega
          obtain rfl := Option.some.inj hstep
          exact Or.inr ⟨_, by omega, .taken m ms got dst mem hat⟩
  | taken m ms got dst mem hat =>
      obtain rfl := Option.some.inj hstep
      exact Or.inr ⟨_, by omega, .returning m ms got dst mem hat⟩
  | returning m ms got dst mem hat =>
      obtain rfl := Option.some.inj hstep
      obtain ⟨got', dst', hat', hreader⟩ := resume_advance hask hat
      refine Or.inr ⟨_, Nat.lt_succ_self _, ?_⟩
      simp only [hreader]
      exact .empty _ got' dst' mem hat'
  | empty left got dst => exact Or.inl (readStep_waits left got dst rfl rfl hstep)
  | writing m ms got dst => exact Or.inl (readStep_waits (m :: ms) got dst rfl rfl hstep)
  | written m ms got dst => exact Or.inl (readStep_waits (m :: ms) got dst rfl rfl hstep)
  | offering m ms got dst => exact Or.inl (readStep_waits (m :: ms) got dst rfl rfl hstep)

theorem writeStep_reader (hstep : writeStep s = some s') : s'.reader = s.reader := by
  unfold writeStep at hstep
  split at hstep
  · obtain rfl := Option.some.inj hstep
    split <;> rfl
  · split at hstep
    · obtain rfl := Option.some.inj hstep
      rfl
    · obtain rfl := Option.some.inj hstep
      rfl
  · obtain rfl := Option.some.inj hstep
    rfl
  · obtain rfl := Option.some.inj hstep
    rfl
  · cases hstep

/-- A writer that does not wait goes on. -/
theorem writeStep_goes (hpc : s.writer.pc ≠ .returned)
    (hload : s.writer.pc = .load → s.isWritable = true) :
    ∃ s', writeStep s = some s' ∧ s'.writer.pc ≠ s.writer.pc := by
  obtain ⟨readable, writable, mem, ⟨pc, src, calls⟩, reader⟩ := s
  cases pc with
  | load =>
      obtain rfl : writable = true := hload rfl
      exact ⟨_, rfl, by simp⟩
  | copy i =>
      simp only [writeStep]
      split
      · exact ⟨_, rfl, by simp⟩
      · exact ⟨_, rfl, by simp⟩
  | clear => exact ⟨_, rfl, by simp⟩
  | set =>
      refine ⟨_, rfl, ?_⟩
      show (if src.length = 0 then Writer.call calls else ⟨.load, src, calls⟩).pc ≠ .set
      cases calls <;> split <;> simp [Writer.call]
  | returned => exact absurd rfl hpc

/-- A reader that does not wait goes on. -/
theorem readStep_goes (ask : List (List CChar) → Option Nat) (hpc : s.reader.pc ≠ .returned)
    (hload : s.reader.pc = .load → s.isReadable = true) :
    ∃ s', readStep ask s = some s' ∧ s'.reader.pc ≠ s.reader.pc := by
  obtain ⟨readable, writable, mem, writer, ⟨pc, size, dst, got⟩⟩ := s
  cases pc with
  | load =>
      obtain rfl : readable = true := hload rfl
      exact ⟨_, rfl, by simp⟩
  | copy i =>
      simp only [readStep]
      split
      · exact ⟨_, rfl, by simp⟩
      · exact ⟨_, rfl, by simp⟩
  | clear => exact ⟨_, rfl, by simp⟩
  | set =>
      refine ⟨_, rfl, ?_⟩
      show (if size = 0 then Reader.call ask (got ++ [dst]) else ⟨.load, size, dst, got⟩).pc ≠ .set
      rw [Reader.call]
      split
      · split <;> simp
      · simp
  | returned => exact absurd rfl hpc

/-- While the reader has not returned, one of the two goes on. -/
theorem phase_live (hask : Asks ask msgs) (h : Phase msgs r s) (hrun : s.reader.pc ≠ .returned) :
    ∃ s', (writeStep s = some s' ∨ readStep ask s = some s') ∧ ∃ r' < r, Phase msgs r' s' := by
  have hturn : (s.writer.pc ≠ .returned ∧ (s.writer.pc = .load → s.isWritable = true)) ∨
      (s.reader.pc = .load → s.isReadable = true) := by
    cases h with
    | empty left got dst mem hat =>
        cases left with
        | nil => exact absurd rfl hrun
        | cons m ms => exact Or.inl ⟨by simp [Writer.call], fun _ => rfl⟩
    | writing | written | offering => exact Or.inl ⟨by simp, by simp⟩
    | full => exact Or.inr fun _ => rfl
    | reading | taken | returning => exact Or.inr (by simp)
  rcases hturn with ⟨hpc, hload⟩ | hload
  · obtain ⟨s', hstep, hne⟩ := writeStep_goes hpc hload
    exact ⟨s', Or.inl hstep, (writeStep_phase h hstep).resolve_left fun he => hne (he ▸ rfl)⟩
  · obtain ⟨s', hstep, hne⟩ := readStep_goes ask hrun hload
    exact ⟨s', Or.inr hstep, (readStep_phase hask h hstep).resolve_left fun he => hne (he ▸ rfl)⟩

end Steps

/-! ## The transfer -/

/-- A process may access the bytes of the region: the flag it waits for was set when it loaded it, and
    is not cleared yet. -/
def CopyPc.InRegion : CopyPc → Prop
  | .copy _ => True
  | .clear => True
  | _ => False

/-- The writer and the reader are never in the region together. -/
theorem Phase.excludes {msgs : List (List CChar)} {r : Nat} {s : Region} (h : Phase msgs r s) :
    ¬ (s.writer.pc.InRegion ∧ s.reader.pc.InRegion) := by
  rintro ⟨hw, hr⟩
  cases h with
  | empty left got dst => cases left <;> exact hw
  | writing => exact hr
  | written => exact hr
  | offering => exact hw
  | full => exact hr
  | reading m ms got dst i mem hat hi hmem => cases hadv : advance (m :: ms) <;> rw [hadv] at hw <;> exact hw
  | taken m ms => cases hadv : advance (m :: ms) <;> rw [hadv] at hw <;> exact hw
  | returning => exact hr

/-- A worker and `main`, with a region between them. -/
def memLink : Collect.Link Region Unit (List Int) where
  produce _ s := writeStep s
  consume _ s := readStep ask s
  exited s := s.writer.pc = .returned
  result s := if s.reader.pc = .returned then some (array s.reader.got) else none

/-- A writer that has sent everything, when the reader has got everything. -/
theorem phase_returned {msgs : List (List CChar)} {r : Nat} {s : Region} (h : Phase msgs r s)
    (hpc : s.reader.pc = .returned) : s.writer.pc = .returned ∧ s.reader.got = msgs := by
  cases h with
  | empty left got dst mem hat =>
      cases left with
      | nil => exact ⟨rfl, hat.1⟩
      | cons m ms => cases hpc
  | writing => cases hpc
  | written => cases hpc
  | offering => cases hpc
  | full => cases hpc
  | reading => cases hpc
  | taken => cases hpc
  | returning => cases hpc

/-- **`main` gets the array of a worker.** -/
theorem memLink_delivers {vs : List Int} (hsize : 4 * vs.length < 2 ^ 31)
    (hrange : ∀ v ∈ vs, -2 ^ 31 ≤ v ∧ v < 2 ^ 31) :
    memLink.Delivers (Phase (messages vs)) vs where
  produce := fun h hstep => writeStep_phase h hstep
  consume := fun h hstep => readStep_phase (asks_messages hsize) h hstep
  value := by
    intro r c v h hres
    obtain ⟨hpc, hv⟩ := Option.ite_none_right_eq_some.1 hres
    rw [← Option.some.inj hv, (phase_returned h hpc).2, array_messages hrange]
  keeps := by
    intro r c l c' _ hstep
    simp only [memLink, writeStep_reader hstep]
  live := by
    intro r c h hres
    have hrun : c.reader.pc ≠ .returned := by
      intro hpc
      simp only [memLink, hpc, if_true] at hres
      cases hres
    obtain ⟨c', hstep, hnext⟩ := phase_live (asks_messages hsize) h hrun
    exact ⟨(), c', hstep, hnext⟩
  drain := by
    intro r c h hres hexit
    have hpc : c.reader.pc = .returned := by
      by_contra hpc
      exact hres (if_neg hpc)
    exact absurd (phase_returned h hpc).1 (of_decide_eq_false hexit)

end SysProg.Ipc
