import Mathlib.Algebra.BigOperators.Group.Finset.Basic
import SysProg.MergeSort.Ledger

set_option autoImplicit false

/-! # Switch counts (`1/solution/solution.c`)

`me_mergesort` stores the switch count of its coroutine when it returns, and the number `main` prints
is the one stored last. It is the number of all calls of `coro_yield`: the books below hold, for each
coroutine, the calls it has made, those it still has to make for the file it is at, and those that
all its files cost; after the last file there is nothing left, and no call follows. -/

namespace SysProg.MergeSort

open Libcoro
open scoped BigOperators

/-! ## What a file costs -/

/-- The merges of a pass over `n` integers in blocks of `w`, from `left_start = p` on. -/
def mergesFrom (n w p : Nat) : Nat := ((Finset.range (n - 1)).filter fun q => p ≤ q ∧ 2 * w ∣ q).card

/-- The calls of `coro_yield` in the passes with a `curr_size` of `w`, or a greater power of two, up
    to `n`: one after each merge, and one after the pass. -/
def passesFrom (n w : Nat) : Nat :=
  ∑ t ∈ (Finset.range (n + 1)).filter fun t => w ≤ 2 ^ t ∧ 2 ^ t ≤ n, (1 + mergesFrom n (2 ^ t) 0)

/-- The calls of `coro_yield` for a file of `n` integers. -/
def switches (n : Nat) : Nat := 1 + passesFrom n 1

example : switches 0 = 1 ∧ switches 1 = 2 ∧ switches 5 = 8 := by decide

/-- The files that the coroutine `j` has claimed, and no other. -/
def filesOf (vals : List (List Int)) (writes : List (Nat × Location)) (j : Nat) : Finset Nat :=
  (Finset.range vals.length).filter fun i => claimants writes i = [j]

/-- The calls of `coro_yield` for these files. -/
def claimedSwitches (vals : List (List Int)) (writes : List (Nat × Location)) (j : Nat) : Nat :=
  ∑ i ∈ filesOf vals writes j, switches (vals.getD i []).length

section Costs

variable {n w p : Nat}

theorem mergesFrom_of_le (h : n - 1 ≤ p) : mergesFrom n w p = 0 := by
  refine Finset.card_eq_zero.2 (Finset.filter_eq_empty_iff.2 fun q hq hmerge => ?_)
  rw [Finset.mem_range] at hq
  omega

/-- The next merge, and those after it. -/
theorem mergesFrom_of_lt (hw : 0 < w) (hdvd : 2 * w ∣ p) (h : p < n - 1) :
    mergesFrom n w p = mergesFrom n w (p + 2 * w) + 1 := by
  have hinsert : ((Finset.range (n - 1)).filter fun q => p ≤ q ∧ 2 * w ∣ q)
      = insert p ((Finset.range (n - 1)).filter fun q => p + 2 * w ≤ q ∧ 2 * w ∣ q) := by
    ext q
    simp only [Finset.mem_insert, Finset.mem_filter, Finset.mem_range]
    constructor
    · rintro ⟨hq, hpq, hdvdq⟩
      rcases Nat.eq_or_lt_of_le hpq with rfl | hlt
      · exact Or.inl rfl
      · -- the next multiple is `2 * w` away
        have hstep := Nat.le_of_dvd (Nat.sub_pos_of_lt hlt) (Nat.dvd_sub hdvdq hdvd)
        exact Or.inr ⟨hq, by omega, hdvdq⟩
    · rintro (rfl | ⟨hq, hpq, hdvdq⟩)
      · exact ⟨h, Nat.le_refl _, hdvd⟩
      · exact ⟨hq, by omega, hdvdq⟩
  rw [mergesFrom, hinsert, Finset.card_insert_of_notMem]
  · rfl
  · intro hmem
    have hle := (Finset.mem_filter.1 hmem).2.1
    omega

theorem passesFrom_of_lt (h : n < w) : passesFrom n w = 0 := by
  rw [passesFrom, Finset.filter_eq_empty_iff.2 fun t _ ht => by omega]
  rfl

/-- The next pass, and those after it. -/
theorem passesFrom_of_le (hpow : ∃ t, w = 2 ^ t) (h : w ≤ n) :
    passesFrom n w = mergesFrom n w 0 + 1 + passesFrom n (2 * w) := by
  obtain ⟨t, rfl⟩ := hpow
  have hinsert : ((Finset.range (n + 1)).filter fun u => 2 ^ t ≤ 2 ^ u ∧ 2 ^ u ≤ n)
      = insert t ((Finset.range (n + 1)).filter fun u => 2 * 2 ^ t ≤ 2 ^ u ∧ 2 ^ u ≤ n) := by
    ext u
    simp only [Finset.mem_insert, Finset.mem_filter, Finset.mem_range, ← Nat.pow_succ',
      Nat.pow_le_pow_iff_right (show 1 < 2 by decide)]
    have hlt : t < 2 ^ t := Nat.lt_two_pow_self
    constructor
    · rintro ⟨hu, htu, hle⟩
      rcases Nat.eq_or_lt_of_le htu with rfl | hlt
      · exact Or.inl rfl
      · exact Or.inr ⟨hu, hlt, hle⟩
    · rintro (rfl | ⟨hu, htu, hle⟩)
      · exact ⟨by omega, Nat.le_refl _, h⟩
      · exact ⟨hu, by omega, hle⟩
  rw [passesFrom, hinsert, Finset.sum_insert]
  · rw [Nat.add_comm 1, passesFrom]
  · intro hmem
    have hle := (Finset.mem_filter.1 hmem).2.1
    have hpos := Nat.two_pow_pos t
    omega

end Costs

/-! ## What is left of a file -/

/-- The local variables of `me_mergesort` of `n` integers, called by the coroutine `j`, in a pass over
    blocks of `w`. -/
structure SortFrame.InPass (f : SortFrame) (j n w : Nat) : Prop where
  rhs : f.rhs = n
  this : f.this = some (.node j)
  currSize : f.currSize = w
  pow : ∃ t, w = 2 ^ t

/-- How often the coroutine `j` still calls `coro_yield` for the file it is at. -/
inductive Left (j : Nat) : Resume → Nat → Prop
  | start : Left j .start 0
  | afterRead {file n : Nat} : Left j (.afterRead file n) (passesFrom n 1)
  | afterMerge {f : SortFrame} {n w p : Nat} (hf : f.InPass j n w) (hdvd : 2 * w ∣ p) :
      Left j (.afterMerge f p) (mergesFrom n w (p + 2 * w) + 1 + passesFrom n (2 * w))
  | afterPass {f : SortFrame} {n w : Nat} (hf : f.InPass j n w) :
      Left j (.afterPass f) (passesFrom n (2 * w))

/-- The same at the place a turn comes to. -/
inductive LeftAt (j : Nat) : Place → Nat → Prop
  | inner {f : SortFrame} {n w p : Nat} (hf : f.InPass j n w) (hdvd : 2 * w ∣ p) :
      LeftAt j (.inner f p) (mergesFrom n w p + 1 + passesFrom n (2 * w))
  | first : LeftAt j (.files none) 0
  | next : LeftAt j (.files (some (some (.node j)))) 0

section Turns

variable {env : Env} {names : List (List CChar)} {vals : List (List Int)} {mem mem' : Mem}
  {j k : Nat} {q : CoroArgs} {place : Place}

/-- The way to the inner loop, or to the next file, is without a `coro_yield`. -/
theorem Left.enters {r : Resume} (h : Left j r k) (henters : Enters (some (.node j)) r place) :
    LeftAt j place k := by
  cases henters with
  | start =>
      cases h
      exact .first
  | @sort file n array hn =>
      cases h with
      | @afterRead _ n =>
          have hf : SortFrame.InPass ⟨file, array, n, some (.node j), 1⟩ j n 1 :=
            ⟨rfl, rfl, rfl, 0, rfl⟩
          rw [passesFrom_of_le (w := 1) ⟨0, rfl⟩ (Int.ofNat_le.1 hn)]
          exact .inner hf (Nat.dvd_zero _)
  | empty hn =>
      cases h with
      | afterRead =>
          rw [passesFrom_of_lt (Int.ofNat_lt.1 hn)]
          exact .next
  | @merge f _ =>
      cases h with
      | @afterMerge _ n w p hf hdvd =>
          have hnext : (p : Int) + 2 * f.currSize = ((p + 2 * w : Nat) : Int) := by
            rw [hf.currSize]
            rfl
          rw [hnext]
          exact .inner hf (Nat.dvd_add hdvd (Nat.dvd_refl _))
  | @pass f hle =>
      cases h with
      | @afterPass _ n w hf =>
          have hle' : 2 * w ≤ n := by
            rw [hf.currSize, hf.rhs] at hle
            omega
          have hf' : SortFrame.InPass { f with currSize := 2 * f.currSize } j n (2 * w) :=
            ⟨hf.rhs, hf.this, by rw [hf.currSize]; rfl, twice_pow hf.pow⟩
          rw [passesFrom_of_le (twice_pow hf.pow) hle']
          exact .inner hf' (Nat.dvd_zero _)
  | @sorted f hlt =>
      cases h with
      | @afterPass _ n w hf =>
          have hlt' : n < 2 * w := by
            rw [hf.currSize, hf.rhs] at hlt
            omega
          rw [passesFrom_of_lt hlt', hf.this]
          exact .next

/-- Whose files are whose depends on the claims only. -/
theorem claimedSwitches_congr (vals : List (List Int))
    (h : ∀ i, claimants mem'.writes i = claimants mem.writes i) (j : Nat) :
    claimedSwitches vals mem'.writes j = claimedSwitches vals mem.writes j := by
  simp only [claimedSwitches, filesOf, h]

/-- A file is claimed. -/
theorem claimedSwitches_claim {vs : List Int} {file me : Nat} (hvs : vals[file]? = some vs)
    (hfree : claimants mem.writes file = [])
    (h : ∀ i, claimants mem'.writes i
      = claimants mem.writes i ++ if i = file then [me] else []) (j : Nat) :
    claimedSwitches vals mem'.writes j
      = claimedSwitches vals mem.writes j + if j = me then switches vs.length else 0 := by
  have hother : ∀ i, i ≠ file → claimants mem'.writes i = claimants mem.writes i := by
    intro i hi
    rw [h, if_neg hi, List.append_nil]
  have hself : claimants mem'.writes file = [me] := by
    rw [h, if_pos rfl, hfree]
    rfl
  have hnot : file ∉ filesOf vals mem.writes j := by
    rw [filesOf, Finset.mem_filter, hfree]
    rintro ⟨-, hnil⟩
    cases hnil
  by_cases hj : j = me
  · have hinsert : filesOf vals mem'.writes j = insert file (filesOf vals mem.writes j) := by
      ext i
      simp only [filesOf, Finset.mem_insert, Finset.mem_filter, Finset.mem_range]
      by_cases hi : i = file
      · rw [hi, hself, hj]
        simp [PoolInv.lt_of_get hvs]
      · simp [hi, hother i hi]
    have hlen : (vals.getD file []).length = vs.length := by rw [List.getD, hvs]; rfl
    rw [claimedSwitches, hinsert, Finset.sum_insert hnot, hlen, if_pos hj, Nat.add_comm]
    rfl
  · have hsame : filesOf vals mem'.writes j = filesOf vals mem.writes j := by
      refine Finset.filter_congr fun i _ => ?_
      by_cases hi : i = file
      · rw [hi, hself, hfree]
        simp [Ne.symm hj]
      · rw [hother i hi]
    rw [claimedSwitches, hsame, if_neg hj, Nat.add_zero]
    rfl

/-- What a turn of `me` comes to: others keep their files, and `me` has made one of the calls that
    were left, or has claimed a file and made the first one for it, or returns. -/
theorem LeftAt.ends (hread : Holds env names vals) (hbooks : Books env names mem) {me : Nat}
    {call : BodyCall Local} (h : LeftAt me place k) (hends : Ends env me q mem mem' place call) :
    (∀ j, j ≠ me → claimedSwitches vals mem'.writes j = claimedSwitches vals mem.writes j) ∧
    ((∃ l' k', call = .call (.yield l') ∧ l'.resume ≠ .start ∧ Left me l'.resume k' ∧
      claimedSwitches vals mem'.writes me + k = claimedSwitches vals mem.writes me + k' + 1) ∨
    (call = .ret 0 ∧ k = 0 ∧
      claimedSwitches vals mem'.writes me = claimedSwitches vals mem.writes me)) := by
  cases hends with
  | merge hlt _ hclaims =>
      refine ⟨fun j _ => claimedSwitches_congr vals hclaims j, ?_⟩
      cases h with
      | @inner f n w p hf hdvd =>
          have hlt' : p < n - 1 := by
            rw [hf.rhs] at hlt
            omega
          refine Or.inl ⟨_, _, rfl, fun h => (by cases h), .afterMerge hf hdvd, ?_⟩
          rw [claimedSwitches_congr vals hclaims, mergesFrom_of_lt (pow_pos_of hf.pow) hdvd hlt']
          omega
  | pass hle _ hclaims =>
      refine ⟨fun j _ => claimedSwitches_congr vals hclaims j, ?_⟩
      cases h with
      | @inner f n w p hf hdvd =>
          have hle' : n - 1 ≤ p := by
            rw [hf.rhs] at hle
            omega
          refine Or.inl ⟨_, _, rfl, fun h => (by cases h), .afterPass hf, ?_⟩
          rw [claimedSwitches_congr vals hclaims, mergesFrom_of_le hle']
          omega
  | @read _ file f vs hf hfree hfile _ hclaims =>
      -- the file is the one of `vals`
      have hname : names[file]? = some f.name := by rw [← hbooks.files, List.getElem?_map, hf]; rfl
      have hvs : vals[file]? = some vs := by
        have hlen : names.length = vals.length := List.Forall₂.length_eq hread
        have hi : file < vals.length := hlen ▸ PoolInv.lt_of_get hname
        obtain ⟨name, hname', hvals, -⟩ := hread.get (List.getElem?_eq_getElem hi)
        obtain rfl := Option.some.inj (hname.symm.trans hname')
        obtain ⟨rfl, -⟩ := Prod.mk.inj ((pure_inj _ _).1 (hfile.symm.trans hvals))
        exact List.getElem?_eq_getElem hi
      have hclaim := claimedSwitches_claim hvs (hbooks.unclaimed file f hf hfree) hclaims
      have hzero : k = 0 := by
        cases h with
        | first => rfl
        | next => rfl
      refine ⟨fun j hj => by rw [hclaim, if_neg hj, Nat.add_zero], Or.inl ⟨_, _, rfl,
        fun h => (by cases h), .afterRead, ?_⟩⟩
      rw [hclaim, if_pos rfl, hzero, switches]
      omega
  | ret _ _ hclaims =>
      refine ⟨fun j _ => claimedSwitches_congr vals hclaims j, Or.inr ⟨rfl, ?_,
        claimedSwitches_congr vals hclaims _⟩⟩
      cases h with
      | first => rfl
      | next => rfl

end Turns

/-! ## The books of the coroutines -/

/-- How often `c` has called `coro_yield`. -/
def yieldsOf (c : CoroPtr) (tr : List Event) : Nat := tr.count (.yield c)

/-- The books of the coroutine `j`: its thread, the switch count in its arguments, the calls of
    `coro_yield` it has made and those its files cost. -/
inductive Account (j : Nat) : Option (Thread Local) → Int → Nat → Nat → Prop
  | ready {l : Local} {n sampled : Int} {made cost k : Nat} (hleft : Left j l.resume k) (hn : n = made)
      (hcost : made + k = cost) (hstart : l.resume = .start → sampled = 0 ∧ made = 0) :
      Account j (some ⟨.ready l, n⟩) sampled made cost
  | settled {t : Option (Thread Local)} {sampled : Int} {made cost : Nat}
      (ht : ∀ l n, t ≠ some ⟨.ready l, n⟩) (hn : sampled = made) (hcost : made = cost) :
      Account j t sampled made cost

/-- The books of all coroutines. -/
structure Accounts (vals : List (List Int)) (a : Sched MainState Local Mem) : Prop where
  account : ∀ (j : Nat) q, a.mem.args[j]? = some q → Account j (a.threads (.node j)) q.switchCount
    (yieldsOf (.node j) a.trace) (claimedSwitches vals a.mem.writes j)
  unborn : ∀ j, a.brk ≤ j → yieldsOf (.node j) a.trace = 0 ∧ claimedSwitches vals a.mem.writes j = 0

/-- A coroutine that is not ready has no call left to make. -/
theorem Account.settled_of {j : Nat} {t : Option (Thread Local)} {sampled : Int} {made cost : Nat}
    (h : Account j t sampled made cost) (ht : ∀ l n, t ≠ some ⟨.ready l, n⟩) :
    sampled = made ∧ made = cost := by
  cases h with
  | ready _ _ _ _ => exact absurd rfl (ht _ _)
  | settled _ hn hcost => exact ⟨hn, hcost⟩

section Steps

variable {env : Env} {names : List (List CChar)} {vals : List (List Int)} {m : Nat}
  {a a' : Sched MainState Local Mem}

theorem yieldsOf_append (c : CoroPtr) (tr es : List Event) :
    yieldsOf c (tr ++ es) = yieldsOf c tr + yieldsOf c es := List.count_append

theorem yieldsOf_eq_zero {c : CoroPtr} {es : List Event} (h : .yield c ∉ es) : yieldsOf c es = 0 :=
  List.count_eq_zero.2 h

/-- The library answers the coroutine that runs. -/
theorem view_running {c : CoroPtr} {k : Option CoroPtr → MainState} (hctl : a.control = .body c k) :
    a.view.coroThis = some c := by
  rw [Sched.view, Sched.this, hctl]

theorem view_switchCount {j : Nat} {t : Thread Local} (ht : a.threads (.node j) = some t) :
    a.view.coroSwitchCount (.node j) = pure t.switchCount := by
  simp only [Sched.view, Sched.look, ht]

/-- What a turn does to the switch count in the arguments of its coroutine. -/
theorem Account.turn {j : Nat} {l : Local} {n old new : Int} {made cost : Nat} {place : Place}
    (h : Account j (some ⟨.ready l, n⟩) old made cost) (hthis : a.view.coroThis = some (.node j))
    (ht : a.threads (.node j) = some ⟨.ready l, n⟩)
    (henters : Enters a.view.coroThis l.resume place) (hsamples : Samples a.view old place new) :
    ∃ k, LeftAt j place k ∧ n = made ∧ made + k = cost ∧
      ((∃ r, place = .files r) → new = made) := by
  cases h with
  | settled hnot => exact absurd rfl (hnot l n)
  | ready hleft hn hcost hstart =>
      rw [hthis] at henters
      refine ⟨_, hleft.enters henters, hn, hcost, ?_⟩
      rintro ⟨r, rfl⟩
      cases r with
      | none =>
          -- the coroutine has just started
          have hresume : l.resume = .start := by
            generalize l.resume = r at henters
            cases henters
            rfl
          obtain ⟨hold, hmade⟩ := hstart hresume
          rw [show new = old from hsamples, hold, hmade]
          rfl
      | some this =>
          obtain ⟨c, rfl, hcount⟩ := hsamples
          have hself : c = .node j := by
            cases hleft.enters henters
            rfl
          rw [hself, view_switchCount ht] at hcount
          rw [← (pure_inj _ _).1 hcount]
          exact hn

/-- A step that leaves the books of all coroutines but `me` as they are. -/
theorem Accounts.set (h : Accounts vals a) {me : Nat} {new : CoroArgs} {t : Option (Thread Local)}
    {es : List Event} (hlt : me < a.brk) (hargs : a'.mem.args = a.mem.args.set me new)
    (hbrk : a'.brk = a.brk) (hthreads : a'.threads = Function.update a.threads (.node me) t)
    (htrace : a'.trace = a.trace ++ es) (hes : ∀ j, j ≠ me → Event.yield (.node j) ∉ es)
    (hothers : ∀ j, j ≠ me →
      claimedSwitches vals a'.mem.writes j = claimedSwitches vals a.mem.writes j)
    (hnew : Account me t new.switchCount (yieldsOf (.node me) a.trace + yieldsOf (.node me) es)
      (claimedSwitches vals a'.mem.writes me)) : Accounts vals a' := by
  have hother : ∀ j, j ≠ me → yieldsOf (.node j) a'.trace = yieldsOf (.node j) a.trace := by
    intro j hj
    rw [htrace, yieldsOf_append, yieldsOf_eq_zero (hes j hj), Nat.add_zero]
  refine ⟨?account, ?unborn⟩
  case account =>
    intro j q hq
    rw [hargs] at hq
    rw [hthreads]
    rcases PoolInv.get_set hq with ⟨rfl, rfl⟩ | ⟨hj, hq⟩
    · rw [Function.update_self, htrace, yieldsOf_append]
      exact hnew
    · rw [Function.update_of_ne (fun heq => hj (CoroPtr.node.inj heq).symm), hother j (Ne.symm hj),
        hothers j (Ne.symm hj)]
      exact h.account j q hq
  case unborn =>
    intro j hj
    have hne : j ≠ me := by omega
    rw [hother j hne, hothers j hne]
    exact h.unborn j (hbrk ▸ hj)

/-- A new coroutine has made no calls, and has no files. -/
theorem Accounts.spawn (h : Accounts vals a) (hlen : a.mem.args.length = a.brk)
    (hmem : a'.mem = { a.mem with args := a.mem.args ++ [newArgs a.mem.files.length] })
    (hthreads : a'.threads
      = Function.update a.threads (.node a.brk) (some ⟨.ready ⟨a.brk, .start⟩, 0⟩))
    (hbrk : a'.brk = a.brk + 1) (htrace : a'.trace = a.trace ++ [.new (.node a.brk)]) :
    Accounts vals a' := by
  have hyields : ∀ j, yieldsOf (.node j) a'.trace = yieldsOf (.node j) a.trace := by
    intro j
    have hnone : yieldsOf (.node j) [.new (.node a.brk)] = 0 := yieldsOf_eq_zero (by simp)
    rw [htrace, yieldsOf_append, hnone, Nat.add_zero]
  refine ⟨?account, ?unborn⟩
  case account =>
    intro j q hq
    rw [hmem] at hq ⊢
    rw [hthreads, hyields]
    rcases Nat.lt_or_ge j a.mem.args.length with hj | hj
    · rw [List.getElem?_append_left hj] at hq
      have hne : CoroPtr.node j ≠ .node a.brk := by
        intro heq
        have hbrk := CoroPtr.node.inj heq
        omega
      rw [Function.update_of_ne hne]
      exact h.account j q hq
    · rw [List.getElem?_append_right hj, List.getElem?_singleton] at hq
      split at hq
      · obtain rfl : j = a.brk := by omega
        obtain rfl := Option.some.inj hq
        obtain ⟨hmade, hcost⟩ := h.unborn a.brk (Nat.le_refl _)
        rw [Function.update_self, hmade, hcost]
        exact .ready .start rfl rfl fun _ => ⟨rfl, rfl⟩
      · cases hq
  case unborn =>
    intro j hj
    rw [hyields, hmem]
    exact h.unborn j (by omega)

/-- What is deleted was not ready, and nothing else changes. -/
theorem Accounts.quiet (h : Accounts vals a) {out : List Int} {es : List Event}
    (hmem : a'.mem = { a.mem with output := out }) (hbrk : a'.brk = a.brk)
    (hthreads : a'.threads = a.threads ∨ ∃ c, (∀ l n, a.threads c ≠ some ⟨.ready l, n⟩) ∧
      a'.threads = Function.update a.threads c none)
    (htrace : a'.trace = a.trace ++ es) (hes : ∀ c, .yield c ∉ es) : Accounts vals a' := by
  have hyields : ∀ j, yieldsOf (.node j) a'.trace = yieldsOf (.node j) a.trace := by
    intro j
    rw [htrace, yieldsOf_append, yieldsOf_eq_zero (hes _), Nat.add_zero]
  refine ⟨?account, fun j hj => ?unborn⟩
  case account =>
    intro j q hq
    rw [hmem] at hq ⊢
    rw [hyields]
    have haccount := h.account j q hq
    rcases hthreads with hsame | ⟨c, hc, hdel⟩
    · rw [hsame]
      exact haccount
    · rw [hdel]
      by_cases hj : .node j = c
      · subst hj
        rw [Function.update_self]
        obtain ⟨hn, hcost⟩ := haccount.settled_of hc
        exact .settled (fun _ _ h => (by cases h)) hn hcost
      · rw [Function.update_of_ne hj]
        exact haccount
  case unborn =>
    rw [hyields, hmem]
    exact h.unborn j (hbrk ▸ hj)

/-- **Every step keeps the books.** -/
theorem Accounts.step (hread : Holds env names vals) (h : Accounts vals a)
    (hledger : Ledger env names m a) (hgoes : Run.Goes (Sched.step (program env m)) a a') :
    Accounts vals a' := by
  obtain ⟨-, hstep⟩ := programStep_of_goes hledger.started hgoes
  -- what a turn comes to, by the books before it
  have hturn : ∀ {c k l n q place count call}, a.control = .body c k →
      a.threads c = some ⟨.ready l, n⟩ → Turn env a.view l a.mem a'.mem q place count call →
      c = .node l.args ∧ l.args < a.brk ∧ ∃ left, LeftAt l.args place left ∧
        n = yieldsOf c a.trace ∧ yieldsOf c a.trace + left = claimedSwitches vals a.mem.writes l.args ∧
        ((∃ r, place = .files r) → count = yieldsOf c a.trace) := by
    intro c k l n q place count call hctl ht hturn
    obtain rfl := (hledger.ready c l n ht).1
    have haccount := h.account l.args q hturn.get
    rw [ht] at haccount
    refine ⟨rfl, ?_, haccount.turn (view_running hctl) ht hturn.enters hturn.samples⟩
    rw [← hledger.args_length]
    exact PoolInv.lt_of_get hturn.get
  cases hstep with
  | spawn _ _ hmem hthreads _ hbrk htrace =>
      exact h.spawn hledger.args_length hmem hthreads hbrk htrace
  | quiet _ hmem hbrk hthreads _ htrace =>
      obtain ⟨out, hmem⟩ := hmem
      obtain ⟨es, htrace, -, hes⟩ := htrace
      refine h.quiet hmem hbrk (hthreads.imp_right ?_) htrace hes
      -- a coroutine that has been waited for is not ready
      rintro ⟨c, hc, hdel⟩
      refine ⟨c, fun l n ht => ?_, hdel⟩
      exact hledger.sched.book.not_waited (hledger.ready c l n ht).2 hc
  | @yields c l l' n q place count hctl ht hturns hthreads _ hbrk htrace =>
      obtain ⟨rfl, hlt, left, hleft, hn, hcost, -⟩ := hturn hctl ht hturns
      obtain ⟨d, htrace⟩ := htrace
      obtain ⟨hothers, hends⟩ := hleft.ends hread hledger.books hturns.ends
      rcases hends with ⟨k, left', hcall, hresume, hleft', hclaimed⟩ | ⟨hcall, -⟩
      · cases hcall
        have hone : yieldsOf (.node l.args) [.yield (.node l.args), .switch d] = 1 := by
          simp [yieldsOf]
        refine h.set hlt hturns.args hbrk hthreads htrace (fun j hj => by simpa using hj) hothers ?_
        rw [hone]
        exact .ready hleft' (by rw [hn]; rfl) (by omega) fun hstart => absurd hstart hresume
      · cases hcall
  | @finishes c l n q place count hctl ht hturns hthreads _ hbrk htrace =>
      obtain ⟨rfl, hlt, left, hleft, hn, hcost, hcount⟩ := hturn hctl ht hturns
      obtain ⟨hothers, hends⟩ := hleft.ends hread hledger.books hturns.ends
      rcases hends with ⟨k, left', hcall, -⟩ | ⟨-, hzero, hclaimed⟩
      · cases hcall
      · have hplace : ∃ r, place = .files r := by
          cases hturns.ends with
          | ret => exact ⟨_, rfl⟩
        have hnone : yieldsOf (.node l.args) [.ret (.node l.args) 0, .switch .sched] = 0 :=
          yieldsOf_eq_zero (by simp)
        refine h.set hlt hturns.args hbrk hthreads htrace (fun j hj => by simp) hothers ?_
        rw [hnone, Nat.add_zero]
        refine .settled (fun _ _ h => (by cases h)) (hcount hplace) ?_
        omega

end Steps

/-! ## Runs of the program -/

theorem init_accounts (vals : List (List Int)) (names : List (List CChar)) :
    Accounts vals (Sched.init (.start 0) (tables names)) := by
  refine ⟨fun j q hq => (by cases hq), fun j _ => ⟨rfl, ?_⟩⟩
  refine Finset.sum_eq_zero fun i hi => ?_
  cases (Finset.mem_filter.1 hi).2

/-- Every run keeps the books. -/
theorem reaches_accounts {env : Env} {names : List (List CChar)} {vals : List (List Int)} {m : Nat}
    (hread : Holds env names vals) {a : Sched MainState Local Mem}
    (h : Run.Reaches (Sched.step (program env m)) (Sched.init (.start 0) (tables names)) a) :
    Ledger env names m a ∧ Accounts vals a := by
  induction h with
  | refl => exact ⟨init_ledger env names m 0, init_accounts vals names⟩
  | tail _ hgoes ih => exact ⟨ih.1.step hgoes, ih.2.step hread ih.1 hgoes⟩

/-- **The switch count is exact**: when all coroutines have been waited for, the switch count `main`
    prints for each of them is the number of its calls of `coro_yield`, and the sum of what its files
    cost. -/
theorem switch_count_exact (env : Env) (names : List (List CChar)) (vals : List (List Int)) (m : Nat)
    (hread : Holds env names vals) (s : State MainState Local Mem)
    (h : Libcoro.Reaches (program env m) (init (.start 0) (tables names)) s)
    (hpoint : s.point = .user (.main (.waited none))) :
    s.mem.args.length = m ∧ ∀ (j : Nat) q, s.mem.args[j]? = some q →
      q.switchCount = yieldsOf (.node j) s.trace ∧
      q.switchCount = claimedSwitches vals s.mem.writes j := by
  obtain ⟨a, hreach, hrep, -⟩ := h.sched
  obtain ⟨hledger, haccounts⟩ := reaches_accounts hread hreach
  have hctl := hrep.control_main hpoint
  rw [hrep.mem, hrep.trace]
  refine ⟨hledger.args_length.trans (hledger.at_end hctl).1, fun j q hq => ?_⟩
  obtain ⟨hn, hcost⟩ := (haccounts.account j q hq).settled_of (hledger.not_ready hctl (.node j))
  exact ⟨hn, by rw [hn, hcost]⟩

/-- Two coroutines sort the file `f` with the text `2 1`; one of them gets no file. -/
theorem switch_count_exact_oneFile :
    ∃ s, Libcoro.Reaches (program oneFile 2) (init (.start 0) (tables [ascii ['f']])) s ∧
      s.mem.args.length = 2 ∧ ∀ (j : Nat) q, s.mem.args[j]? = some q →
        q.switchCount = yieldsOf (.node j) s.trace ∧
        q.switchCount = claimedSwitches [[2, 1]] s.mem.writes j := by
  obtain ⟨s, hs, hpoint⟩ := library_waited oneFile_holds (show 1 ≤ 2 by decide)
  exact ⟨s, hs, switch_count_exact oneFile [ascii ['f']] [[2, 1]] 2 oneFile_holds s hs hpoint⟩

end SysProg.MergeSort
