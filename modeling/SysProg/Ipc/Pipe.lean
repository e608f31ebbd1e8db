import SysProg.Ipc.Sorter
import SysProg.Lib.Collect

set_option autoImplicit false

/-! # Messages through a pipe (`lecture_examples/7_ipc/2_parallel_sort.c`)

The worker `write`s its two messages into a pipe, by one call for each, and closes it; `main` reads them
by `read_from_pipe`. The kernel moves the bytes of a `write` in pieces, as there is room in the pipe, and
a `read` may return fewer bytes than it was asked for: how many, each step leaves open. A call moves no
more than `maxRw` bytes, though, and the worker does not look at what its calls return. -/

namespace SysProg.Ipc

/-! ## The two processes -/

/-- A process in `read_from_pipe`, with `size` bytes still to read behind those of `dst`, and the
    messages it got by its calls before. -/
structure PipeReader where
  returned : Bool
  size : Nat
  dst : List CChar
  got : List (List CChar)

/-- A pipe, with the worker and `main`. -/
structure Pipe where
  bytes : List CChar
  /-- What the `write` the worker is in has still to move. -/
  call : List CChar
  /-- The buffers of the calls after it. -/
  bufs : List (List CChar)
  closed : Bool
  reader : PipeReader

/-- The kernel moves at most this many bytes in a call of `write`. -/
def maxRw : Nat := 0x7ffff000

/-- The next call of `read_from_pipe`, if there is one. -/
def PipeReader.call (ask : List (List CChar) → Option Nat) (got : List (List CChar)) : PipeReader :=
  match ask got with
  | none => ⟨true, 0, [], got⟩
  | some size => ⟨false, size, [], got⟩

/-- The next step of the worker: `k` bytes of its `write` go into the pipe, that holds `room` of them, or
    it makes its next call, or it closes the pipe. The bytes of a buffer behind the first `maxRw` are not
    written. -/
def pipeWrite (room : Nat) (k : Nat) (s : Pipe) : Option Pipe :=
  if s.call.length = 0 then
    match s.bufs with
    | [] => if s.closed then none else some { s with closed := true }
    | buf :: bufs => some { s with call := buf.take maxRw, bufs := bufs }
  else if 0 < k ∧ k ≤ s.call.length ∧ s.bytes.length + k ≤ room then
    some { s with bytes := s.bytes ++ s.call.take k, call := s.call.drop k }
  else none

/-- The next `read` of `read_from_pipe`, when it returns `k` bytes. It returns none when it was asked for
    none, which ends the loop, and when the pipe is empty and closed: then `main` goes on with memory
    that was never written, and that is undefined. -/
def pipeRead (ask : List (List CChar) → Option Nat) (k : Nat) (s : Pipe) : Option Pipe :=
  if s.reader.returned then none
  else if s.reader.size = 0 then
    some { s with reader := .call ask (s.reader.got ++ [s.reader.dst]) }
  else if 0 < k ∧ k ≤ s.reader.size ∧ k ≤ s.bytes.length then
    some { s with
      bytes := s.bytes.drop k
      reader := { s.reader with size := s.reader.size - k, dst := s.reader.dst ++ s.bytes.take k } }
  else none

/-- An empty pipe, and a worker that is about to write `msgs`. -/
def Pipe.start (ask : List (List CChar) → Option Nat) (msgs : List (List CChar)) : Pipe :=
  { bytes := [], call := [], bufs := msgs, closed := false, reader := .call ask [] }

/-- A worker and `main`, with a pipe between them that holds `room` bytes. -/
def pipeLink (room : Nat) : Collect.Link Pipe Nat (List Int) where
  produce := pipeWrite room
  consume := pipeRead ask
  exited s := s.closed
  result s := if s.reader.returned then some (array s.reader.got) else none

/-! ## The bytes under way -/

/-- A reader that has got all but `left`. -/
def PipeReader.resume (left got : List (List CChar)) (dst : List CChar) : PipeReader :=
  match left with
  | [] => ⟨true, 0, [], got⟩
  | m :: _ => ⟨false, m.length, dst, got⟩

/-- More steps than it takes to move these messages. -/
def moves (left : List (List CChar)) : Nat := (left.map fun m => m.length + 1).sum

/-- What the reader has not got is in the pipe, or still to be written, and fits the calls. -/
inductive Piped (msgs : List (List CChar)) : Nat → Pipe → Prop
  | mk (left got : List (List CChar)) (dst bytes call : List CChar) (bufs : List (List CChar))
      (closed : Bool) (hat : At msgs left got dst)
      (hbytes : bytes ++ (call ++ bufs.flatten) = left.flatten)
      (hfit : ∀ buf ∈ bufs, buf.length ≤ maxRw) (hclosed : closed = true → call = [] ∧ bufs = []) :
      Piped msgs (moves left + (call.length + moves bufs) + if closed then 0 else 1)
        ⟨bytes, call, bufs, closed, .resume left got dst⟩

section Steps

variable {ask : List (List CChar) → Option Nat} {msgs ms got : List (List CChar)} {m dst : List CChar}
  {r room k : Nat} {s s' : Pipe}

theorem moves_cons (m : List CChar) (ms : List (List CChar)) :
    moves (m :: ms) = m.length + 1 + moves ms := List.sum_cons

theorem pipeCall_resume (hask : Asks ask msgs) (h : got ++ ms = msgs) :
    PipeReader.call ask got = .resume ms got [] := by
  have hnext := hask.ask_eq h
  cases ms with
  | nil => rw [PipeReader.call, hnext]; rfl
  | cons m ms => rw [PipeReader.call, hnext]; rfl

/-- **A step of the worker.** -/
theorem pipeWrite_piped (h : Piped msgs r s) (hstep : pipeWrite room k s = some s') :
    ∃ r' < r, Piped msgs r' s' := by
  obtain ⟨left, got, dst, bytes, call, bufs, closed, hat, hbytes, hfit, hclosed⟩ := h
  simp only [pipeWrite] at hstep
  split at hstep
  · next hcall =>
      obtain rfl := List.length_eq_zero_iff.1 hcall
      cases bufs with
      | nil =>
          cases closed with
          | true => cases hstep
          | false =>
              obtain rfl := Option.some.inj hstep
              exact ⟨_, Nat.lt_succ_self _,
                .mk left got dst bytes [] [] true hat hbytes hfit fun _ => ⟨rfl, rfl⟩⟩
      | cons buf bufs =>
          obtain rfl : closed = false := Bool.eq_false_iff.2 fun hc => by cases (hclosed hc).2
          obtain rfl := Option.some.inj hstep
          obtain ⟨hbuf, hbufs⟩ := List.forall_mem_cons.1 hfit
          -- the whole buffer fits the call
          rw [List.take_of_length_le hbuf]
          refine ⟨_, ?_, .mk left got dst bytes buf bufs false hat hbytes hbufs (by simp)⟩
          rw [moves_cons]
          omega
  · next hcall =>
      split at hstep
      · next hk =>
          have hopen : closed = false :=
            Bool.eq_false_iff.2 fun hc => hcall (by rw [(hclosed hc).1]; rfl)
          obtain rfl := Option.some.inj hstep
          refine ⟨_, ?_, .mk left got dst (bytes ++ call.take k) (call.drop k) bufs closed hat ?_ hfit
            (by simp [hopen])⟩
          · rw [List.length_drop]
            omega
          · rw [List.append_assoc, ← List.append_assoc (call.take k), List.take_append_drop]
            exact hbytes
      · cases hstep

/-- **A step of `main`.** -/
theorem pipeRead_piped (hask : Asks ask msgs) (h : Piped msgs r s)
    (hstep : pipeRead ask k s = some s') : ∃ r' < r, Piped msgs r' s' := by
  obtain ⟨left, got, dst, bytes, call, bufs, closed, hat, hbytes, hfit, hclosed⟩ := h
  cases left with
  | nil => cases hstep
  | cons m ms =>
      replace hstep : (if m.length = 0 then
          some (Pipe.mk bytes call bufs closed (.call ask (got ++ [dst])))
        else if 0 < k ∧ k ≤ m.length ∧ k ≤ bytes.length then
          some ⟨bytes.drop k, call, bufs, closed, ⟨false, m.length - k, dst ++ bytes.take k, got⟩⟩
        else none) = some s' := hstep
      split at hstep
      · next hnil =>
          obtain rfl := List.length_eq_zero_iff.1 hnil
          obtain rfl := Option.some.inj hstep
          have hgot : (got ++ [dst]) ++ ms = msgs := by
            rw [List.append_assoc]
            rwa [At, List.append_nil] at hat
          rw [pipeCall_resume hask hgot]
          refine ⟨_, ?_,
            .mk ms (got ++ [dst]) [] bytes call bufs closed (at_call hgot) hbytes hfit hclosed⟩
          rw [moves_cons]
          omega
      · split at hstep
        · next hk =>
            obtain rfl := Option.some.inj hstep
            -- the bytes that are read are the next ones of the message
            have htake : bytes.take k = m.take k := by
              have hall := congrArg (List.take k) hbytes
              rwa [List.take_append_of_le_length hk.2.2, List.flatten_cons,
                List.take_append_of_le_length hk.2.1] at hall
            have hdrop : bytes.drop k ++ (call ++ bufs.flatten) = (m.drop k :: ms).flatten := by
              have hall := congrArg (List.drop k) hbytes
              rwa [List.drop_append_of_le_length hk.2.2, List.flatten_cons,
                List.drop_append_of_le_length hk.2.1, ← List.flatten_cons] at hall
            have hat' : At msgs (m.drop k :: ms) got (dst ++ bytes.take k) := by
              rw [htake, At, List.append_assoc, List.take_append_drop]
              exact hat
            have hnext := Piped.mk (m.drop k :: ms) got _ (bytes.drop k) call bufs closed hat' hdrop
              hfit hclosed
            rw [PipeReader.resume, List.length_drop] at hnext
            refine ⟨_, ?_, hnext⟩
            rw [moves_cons, moves_cons, List.length_drop]
            omega
        · cases hstep

/-- A worker goes on, when the pipe has room. -/
theorem pipeWrite_goes (h : s.closed = false) (hroom : s.bytes.length < room) :
    ∃ s', pipeWrite room 1 s = some s' := by
  obtain ⟨bytes, call, bufs, closed, reader⟩ := s
  obtain rfl : closed = false := h
  by_cases hnil : call.length = 0
  · cases bufs with
    | nil => exact ⟨_, if_pos hnil⟩
    | cons buf bufs => exact ⟨_, if_pos hnil⟩
  · exact ⟨_, (if_neg hnil).trans (if_pos ⟨Nat.one_pos, Nat.one_le_iff_ne_zero.2 hnil, hroom⟩)⟩

/-- While the reader has not returned, one of the two goes on. -/
theorem piped_live (hask : Asks ask msgs) (hroom : 0 < room) (h : Piped msgs r s)
    (hrun : s.reader.returned = false) :
    ∃ s', (pipeWrite room 1 s = some s' ∨ pipeRead ask 1 s = some s') ∧ ∃ r' < r, Piped msgs r' s' := by
  have hturn : (s.closed = false ∧ s.bytes.length < room) ∨ ∃ s', pipeRead ask 1 s = some s' := by
    obtain ⟨left, got, dst, bytes, call, bufs, closed, hat, hbytes, hfit, hclosed⟩ := h
    cases left with
    | nil => cases hrun
    | cons m ms =>
        by_cases hnil : m.length = 0
        · exact Or.inr ⟨_, if_pos hnil⟩
        · cases bytes with
          | cons c bytes =>
              have hk : 0 < 1 ∧ 1 ≤ m.length ∧ 1 ≤ (c :: bytes).length :=
                ⟨Nat.one_pos, Nat.one_le_iff_ne_zero.2 hnil, Nat.succ_pos _⟩
              exact Or.inr ⟨_, (if_neg hnil).trans (if_pos hk)⟩
          | nil =>
              -- the worker has not written all of this message yet
              refine Or.inl ⟨Bool.eq_false_iff.2 fun hc => hnil ?_, hroom⟩
              rw [(hclosed hc).1, (hclosed hc).2] at hbytes
              have hlen := congrArg List.length hbytes
              simp only [List.flatten_nil, List.append_nil, List.length_nil, List.flatten_cons,
                List.length_append] at hlen
              omega
  rcases hturn with ⟨hclosed, hfree⟩ | ⟨s', hstep⟩
  · obtain ⟨s', hstep⟩ := pipeWrite_goes hclosed hfree
    exact ⟨s', Or.inl hstep, pipeWrite_piped h hstep⟩
  · exact ⟨s', Or.inr hstep, pipeRead_piped hask h hstep⟩

/-- The reader has returned: it has got everything, and nothing is in the pipe. -/
theorem piped_returned (h : Piped msgs r s) (hret : s.reader.returned = true) :
    s.bytes = [] ∧ s.reader.got = msgs := by
  obtain ⟨left, got, dst, bytes, call, bufs, closed, hat, hbytes, hfit, hclosed⟩ := h
  cases left with
  | nil => exact ⟨(List.append_eq_nil_iff.1 hbytes).1, hat.1⟩
  | cons m ms => cases hret

theorem pipeWrite_reader (hstep : pipeWrite room k s = some s') : s'.reader = s.reader := by
  unfold pipeWrite at hstep
  split at hstep
  · split at hstep
    · split at hstep
      · cases hstep
      · obtain rfl := Option.some.inj hstep
        rfl
    · obtain rfl := Option.some.inj hstep
      rfl
  · split at hstep
    · obtain rfl := Option.some.inj hstep
      rfl
    · cases hstep

end Steps

theorem messages_fit {vs : List Int} (h : 4 * vs.length ≤ maxRw) :
    ∀ m ∈ messages vs, m.length ≤ maxRw := by
  intro m hm
  rw [messages, List.mem_cons, List.mem_singleton] at hm
  rcases hm with rfl | rfl
  · show 4 ≤ maxRw
    decide
  · rwa [length_flatMap_intBytes]

/-- **`main` gets the array of a worker**, through a pipe of any size. -/
theorem pipeLink_delivers {room : Nat} (hroom : 0 < room) {vs : List Int}
    (hsize : 4 * vs.length < 2 ^ 31) (hrange : ∀ v ∈ vs, -2 ^ 31 ≤ v ∧ v < 2 ^ 31) :
    (pipeLink room).Delivers (Piped (messages vs)) vs where
  produce := fun h hstep => Or.inr (pipeWrite_piped h hstep)
  consume := fun h hstep => Or.inr (pipeRead_piped (asks_messages hsize) h hstep)
  value := by
    intro r c v h hres
    obtain ⟨hret, hv⟩ := Option.ite_none_right_eq_some.1 hres
    rw [← Option.some.inj hv, (piped_returned h hret).2, array_messages hrange]
  keeps := by
    intro r c l c' _ hstep
    simp only [pipeLink, pipeWrite_reader hstep]
  live := by
    intro r c h hres
    have hrun : c.reader.returned = false := by
      refine Bool.eq_false_iff.2 fun hret => ?_
      simp only [pipeLink, hret, if_true] at hres
      cases hres
    obtain ⟨c', hstep, hnext⟩ := piped_live (asks_messages hsize) hroom h hrun
    exact ⟨1, c', hstep, hnext⟩
  drain := by
    intro r c h hres hexit
    have hret : c.reader.returned = true := by
      by_contra hrun
      exact hres (if_neg hrun)
    have hfree : c.bytes.length < room := by
      rw [(piped_returned h hret).1]
      exact hroom
    obtain ⟨c', hstep⟩ := pipeWrite_goes hexit hfree
    exact ⟨1, c', hstep, pipeWrite_piped h hstep⟩

end SysProg.Ipc
