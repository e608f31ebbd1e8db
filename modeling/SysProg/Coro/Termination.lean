import Mathlib.Data.List.Perm.Subperm
import SysProg.Coro.Safety

set_option autoImplicit false

/-! # Waiting returns every coroutine once, and then NULL

A run in which `coro_yield` and `coro_new` are called finitely often, and the main context goes on
waiting, makes finitely many steps before `coro_sched_wait` returns NULL: the calls, the deletions,
the returns of bodies and the results of `coro_sched_wait` so far are bounded, and between two of
them control passes from the main context to the scheduler and on to a body. -/

namespace SysProg.Libcoro

variable {K L M : Type}

theorem created_length_le (tr : List Event) : (created tr).length ≤ calls tr := by
  induction tr with
  | nil => exact Nat.le_refl 0
  | cons e tr ih =>
      have hsplit : e :: tr = [e] ++ tr := rfl
      rw [hsplit, created_append, calls_append, List.length_append]
      have he : (created [e]).length ≤ calls [e] := by
        cases e <;> simp [created, calls]
      omega

/-- Until it returns NULL, `coro_sched_wait` returns coroutines. -/
theorem waits_eq {tr : List Event} (h : none ∉ waits tr) :
    ∃ rs : List (CoroPtr × Bool × Int), waits tr = rs.map some ∧ waited tr = rs.map Prod.fst := by
  induction tr with
  | nil => exact ⟨[], rfl, rfl⟩
  | cons e tr ih =>
      have hsplit : e :: tr = [e] ++ tr := rfl
      rw [hsplit, waits_append, List.mem_append, not_or] at h
      obtain ⟨rs, hrs, hrs'⟩ := ih h.2
      rw [hsplit, waits_append, waited_append, hrs, hrs']
      rcases e with c | c | c | ⟨c, v⟩ | (_ | r) | c
      case wait.none => exact absurd (List.mem_singleton.2 rfl) h.1
      case wait.some => exact ⟨r :: rs, rfl, rfl⟩
      all_goals exact ⟨rs, rfl, rfl⟩

namespace Sched

theorem Book.progress_le {members : List CoroPtr} {threads : CoroPtr → Option (Thread L)} {brk : Nat}
    {tr : List Event} (h : Book members threads brk tr) : progress tr ≤ 4 * calls tr := by
  have hcreated := created_length_le tr
  have hwaited : (waited tr).length ≤ (created tr).length := by
    rw [← h.perm.length_eq, List.length_append]
    exact Nat.le_add_right ..
  have hdeleted : (deleted tr).length ≤ (waited tr).length :=
    (List.subperm_of_subset h.deleted_nodup h.deleted_waited).length_le
  have hreturns : (returns tr).length ≤ (created tr).length := by
    have hsub : (returns tr).map Prod.fst ⊆ created tr := by
      intro c hc
      obtain ⟨p, hp, rfl⟩ := List.mem_map.1 hc
      rcases h.returns_finished p hp with hw | ⟨hm, -⟩
      · exact h.waited_created hw
      · exact h.member_created hm
    have hle := (List.subperm_of_subset h.returns_nodup hsub).length_le
    rwa [List.length_map] at hle
  unfold progress
  omega

/-- What a run with at most `N` calls still has to do. -/
def rank (N : Nat) (a : Sched K L M) : Nat :=
  3 * (4 * N - progress a.trace) + a.control.distance

/-- A step makes the rank smaller until `coro_sched_wait` returns NULL. -/
theorem step_rank {P : Program K L M} {a a' : Sched K L M} (ha : a.Inv)
    (hstep : step P a = pure (some a')) {N : Nat}
    (hN : none ∉ waits a'.trace → calls a'.trace ≤ N) :
    none ∈ waits a'.trace ∨ a'.rank N < a.rank N := by
  have hle := (step_inv ha hstep).book.progress_le
  have hdist : a'.control.distance ≤ 2 := by
    cases a'.control <;> simp [Control.distance]
  by_cases hnull : none ∈ waits a'.trace
  · exact Or.inl hnull
  · have hcalls := hN hnull
    obtain ⟨es, htrace, heffect⟩ := step_extends ha hstep
    rw [htrace] at hnull
    have hprogress : progress a'.trace = progress a.trace + progress es := by
      rw [htrace, progress_append]
    refine Or.inr ?_
    unfold rank
    cases heffect with
    | event hpos _ _ => omega
    | pass hzero hlt _ _ => omega
    | null hes _ =>
        subst hes
        simp [waits] at hnull

/-- When `coro_sched_wait` first returns NULL there are no members. -/
theorem step_null {P : Program K L M} {a a' : Sched K L M} (ha : a.Inv)
    (hstep : step P a = pure (some a')) (hnull : none ∉ waits a.trace)
    (hnull' : none ∈ waits a'.trace) : a.members = [] ∧ a'.trace = a.trace ++ [.wait none] := by
  obtain ⟨es, htrace, heffect⟩ := step_extends ha hstep
  have hes : none ∈ waits es := by
    rw [htrace, waits_append, List.mem_append] at hnull'
    exact hnull'.resolve_left hnull
  cases heffect with
  | event _ hno _ => exact absurd hes hno
  | pass _ _ hno _ => exact absurd hes hno
  | null heq hmembers =>
      subst heq
      exact ⟨hmembers, htrace⟩

end Sched

/-- **Waiting returns every coroutine exactly once**, finished and with the value its body returned,
    and then NULL. Until then user code reaches its next library call, `coro_yield` and `coro_new`
    are called at most `N` times, and the main context does not return. -/
theorem sched_wait_returns_all (P : Program K L M) (k : K) (mem : M) (N : Nat)
    (hok : ∀ s e, Reaches P (init k mem) s → none ∉ waits s.trace → step P s ≠ throw (.user e))
    (hcalls : ∀ s, Reaches P (init k mem) s → none ∉ waits s.trace → calls s.trace ≤ N)
    (hmain : ∀ s, Reaches P (init k mem) s → none ∉ waits s.trace → s.point ≠ .halted) :
    ∃ (s : State K L M) (rs : List (CoroPtr × Bool × Int)),
      Reaches P (init k mem) s ∧ waits s.trace = rs.map some ++ [none] ∧
      (rs.map Prod.fst).Perm (created s.trace) ∧ (created s.trace).Nodup ∧
      ((returns s.trace).map Prod.fst).Nodup ∧
      ∀ c f v, (c, f, v) ∈ rs → f = true ∧ (c, v) ∈ returns s.trace := by
  have hsim := library_simulates P
  obtain ⟨a, a', hreach, hnull, hgoes, hnull'⟩ := Run.exists_goal
    (Sched.step P) (Sched.init k mem) (fun a => none ∈ waits a.trace) (Sched.rank N)
    (by simp [Sched.init, waits]) (by
      intro a hreach hnull
      obtain ⟨s, hs, hr, ha⟩ := Reaches.of_sched hreach
      rw [← hr.trace] at hnull
      rcases hstep : Sched.step P a with e | (_ | a')
      · obtain ⟨u, rfl⟩ := Sched.step_error ha hstep
        exact absurd (hsim.error ⟨hr, ha⟩ hstep) (hok s u hs hnull)
      · have hpoint := hr.point
        rw [PointRep, Sched.step_halt hstep] at hpoint
        exact absurd hpoint (hmain s hs hnull)
      · refine ⟨a', hstep, Sched.step_rank ha hstep ?_⟩
        obtain ⟨s', hs', hr', -⟩ := Reaches.of_sched (hreach.tail hstep)
        rw [← hr'.trace]
        exact hcalls s' hs')
  obtain ⟨s', hs', hr', ha'⟩ := Reaches.of_sched (hreach.tail hgoes)
  obtain ⟨-, -, -, ha⟩ := Reaches.of_sched hreach
  obtain ⟨hmembers, htrace⟩ := Sched.step_null ha hgoes hnull hnull'
  obtain ⟨rs, hrs, hrs'⟩ := waits_eq hnull
  have hwaits : waits a'.trace = rs.map some ++ [none] := by
    rw [htrace, waits_append, hrs]
    rfl
  have hperm : (rs.map Prod.fst).Perm (created a'.trace) := by
    have hbook := ha.book.perm
    rw [hmembers, List.append_nil, hrs'] at hbook
    rw [htrace, created_append]
    simpa [created] using hbook
  refine ⟨s', rs, hs', ?_⟩
  rw [hr'.trace]
  refine ⟨hwaits, hperm, ?_, ha'.book.returns_nodup, ?_⟩
  · have hnodup := ha'.book.nodup
    exact (ha'.book.perm.nodup_iff).1 hnodup
  · intro c f v hmem
    refine ha'.book.waits_ret c f v ?_
    rw [hwaits]
    exact List.mem_append_left _ (List.mem_map.2 ⟨_, hmem, rfl⟩)

/-- The hypotheses of `sched_wait_returns_all`, at most five calls, in one state. -/
def meetsFive {K L M : Type} (P : Program K L M) (s : State K L M) : Bool :=
  (match step P s with | .error _ => false | .ok _ => true) && decide (calls s.trace ≤ 5) &&
  (match s.point with | .halted => decide (none ∈ waits s.trace) | _ => true)

theorem sched_wait_returns_all_twoWorkers :
    ∃ (s : State MainStage (Nat × Int) Unit) (rs : List (CoroPtr × Bool × Int)),
      Reaches twoWorkers (init .first ()) s ∧ waits s.trace = rs.map some ++ [none] ∧
      (rs.map Prod.fst).Perm (created s.trace) ∧ (created s.trace).Nodup ∧
      ((returns s.trace).map Prod.fst).Nodup ∧
      ∀ c f v, (c, f, v) ∈ rs → f = true ∧ (c, v) ∈ returns s.trace := by
  have hall : ∀ n ≤ 20, meetsFive twoWorkers (Run.after (step twoWorkers) n (init .first ())) := by
    decide
  have hmeets : ∀ s, Reaches twoWorkers (init .first ()) s → meetsFive twoWorkers s = true := by
    intro s hs
    obtain ⟨n, hn, rfl⟩ := hs.exists_after (m := 20) rfl
    exact hall n hn
  refine sched_wait_returns_all twoWorkers .first () 5 ?_ ?_ ?_
  · intro s e hs _ hstep
    have h := hmeets s hs
    simp [meetsFive, hstep] at h
  · intro s hs _
    have h := hmeets s hs
    simp only [meetsFive, Bool.and_eq_true, decide_eq_true_eq] at h
    exact h.1.2
  · intro s hs hnull hpoint
    have h := hmeets s hs
    simp [meetsFive, hpoint, hnull] at h

end SysProg.Libcoro
