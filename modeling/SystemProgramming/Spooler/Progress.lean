import SystemProgramming.Spooler.Delivery

/-!
# Progress

A state of the program is stuck when nothing but a spurious wake-up can happen. In a stuck state
every thread that has been created is blocked or has terminated (`stuck_thread`).

* `spooler1_never_deadlocks`: with one condition variable and a consumer, no state before main
  calls `spool_shutdown_efficient` is stuck, whichever thread a signal went to.
-/

namespace SystemProgramming.Spooler

open Lib Lib.Monitor

variable {cfg : Config} {mem : Nat → Ptr Str} {s : Run cfg}

/-- Something other than a spurious wake-up can happen. -/
def CanStep (s : Run cfg) : Prop := ∃ a s', (∀ t, a ≠ .spurious t) ∧ step s a = some s'

/-- A move of the spooler is a step of the program. -/
theorem workerStep_of_move {t : Thread cfg}
    {m : State (Thread cfg) (Op Str) (Spool Str) (Ret Str)}
    (h : Move (code cfg.build) s.mon t m) : ∃ w, workerStep s t w = some { s with mon := m } := by
  obtain ⟨w, hw⟩ := (step_iff _).mpr h
  refine ⟨w, ?_⟩
  unfold workerStep
  split
  · rename_i hp
    simp [Monitor.step, hp] at hw
  · rename_i o r hp
    simp [Monitor.step, hp] at hw
  · rw [hw]
    rfl

theorem canStep_of_move {t : Thread cfg} {m : State (Thread cfg) (Op Str) (Spool Str) (Ret Str)}
    (h : Move (code cfg.build) s.mon t m) : CanStep s := by
  obtain ⟨w, hw⟩ := workerStep_of_move h
  exact ⟨.worker t w, { s with mon := m }, by simp, hw⟩

theorem canStep_of_workerStep {t : Thread cfg} {w : Option (Thread cfg)}
    (h : (workerStep s t w).isSome = true) : CanStep s := by
  obtain ⟨s', hs'⟩ := Option.isSome_iff_exists.mp h
  exact ⟨.worker t w, s', by simp, hs'⟩

theorem canStep_of_mainStep (h : (mainStep s).isSome = true) : CanStep s := by
  obtain ⟨s', hs'⟩ := Option.isSome_iff_exists.mp h
  exact ⟨.main, s', by simp, hs'⟩

/-- A thread that has been created and called nothing calls or prints, unless it has
terminated. -/
theorem workerStep_of_idle {t : Thread cfg} (hc : s.main.created (tid cfg t) = true)
    (hp : s.mon.phase t = .idle) (ht : s.terminated t = false) :
    (workerStep s t none).isSome = true := by
  unfold workerStep
  rw [hp]
  simp only [hc, if_true]
  cases t with
  | inl p =>
    have hlt : s.sent p < cfg.nstrs := by
      by_contra hge
      rw [terminated_inl.mpr ⟨op_eq_none_iff.mpr hp, by omega⟩] at ht
      exact absurd ht (by simp)
    simp [hlt]
  | inr c =>
    cases hcon : s.con c with
    | calling | printing => simp [hcon]
    | returned => simp [Run.terminated, hcon] at ht

/-- A call that has returned goes back to its caller. -/
theorem workerStep_of_returned {t : Thread cfg} {o : Op Str} {r : Ret Str}
    (hp : s.mon.phase t = .returned o r) : (workerStep s t none).isSome = true := by
  unfold workerStep
  rw [hp]
  cases t <;> rfl

/-- **In a stuck state** every created thread is blocked or has terminated. -/
theorem stuck_thread (h : (program cfg mem).Reachable s) (hs : ¬ CanStep s) {t : Thread cfg}
    (hc : s.main.created (tid cfg t) = true) :
    (∃ o, s.mon.phase t = .blocked o) ∨ s.terminated t = true := by
  have hwf := reachable_wf (reachable_mon h)
  cases hp : s.mon.phase t with
  | blocked o => exact Or.inl ⟨o, rfl⟩
  | idle =>
    right
    by_contra ht
    exact hs (canStep_of_workerStep (workerStep_of_idle hc hp (by simpa using ht)))
  | returned o r => exact absurd (canStep_of_workerStep (workerStep_of_returned hp)) hs
  | _ =>
    obtain ⟨u, m, hm⟩ := hwf.enabled (t := t) (by rw [hp]; rfl)
    exact absurd (canStep_of_move hm) hs

/-- A consumer that has returned got `NULL`, so the flag is set. -/
theorem shutdown_of_returned (h : (program cfg mem).Reachable s) {c : Fin cfg.ncons}
    (hc : s.con c = .returned) : s.mon.shared.shutdown = true := by
  obtain ⟨r, hr, hg⟩ := (reachable_books h).nulls c hc
  exact (reachable_drained h _ r ((reachable_wf (reachable_mon h)).mem_log_of_returns hr) hg).1

/-- Main can join a producer that has terminated. -/
theorem canStep_of_joined {i : Nat} (hm : s.main = .joinProds i)
    (ht : ∀ p, s.terminated (.inl p) = true) : CanStep s := by
  refine canStep_of_mainStep ?_
  unfold mainStep
  rw [hm]
  simp only
  split_ifs with hi hj
  · rfl
  · refine absurd (fun t hti => ?_) hj
    cases t with
    | inl p => exact ht p
    | inr c => exact absurd hti (by show (c : Nat) + cfg.nprods ≠ i; omega)
  · rfl

/-- **No deadlock with one condition variable.** At most one thread is blocked, and as long as
main has not called `spool_shutdown_efficient`, a worker or main can take a step. -/
theorem spooler1_never_deadlocks (hb : cfg.build = .part3) (hc : 1 ≤ cfg.ncons)
    (h : (program cfg mem).Reachable s) :
    (∀ t u o o', s.mon.phase t = .blocked o → s.mon.phase u = .blocked o' → t = u) ∧
      (s.main.shutdownCalled = false → CanStep s) := by
  have hone : ∀ t u o o', s.mon.phase t = .blocked o → s.mon.phase u = .blocked o' → t = u :=
    fun t u o o' ht hu => spooler1_one_blocked (hb ▸ reachable_mon h) ht hu
  refine ⟨hone, ?_⟩
  intro hm
  cases hmain : s.main with
  | create i =>
    refine canStep_of_mainStep ?_
    unfold mainStep
    rw [hmain]
    simp only
    split_ifs <;> rfl
  | joinProds i =>
    by_contra hs
    have hcreated : ∀ t, s.main.created (tid cfg t) = true := fun t => by rw [hmain]; rfl
    -- no consumer has got `NULL`, so all consumers are blocked
    have hcon : ∀ c : Fin cfg.ncons, ∃ o, s.mon.phase (.inr c) = .blocked o := fun c => by
      rcases stuck_thread h hs (hcreated (.inr c)) with hb | ht
      · exact hb
      · have hflag := shutdown_of_returned h (c := c) (by simpa [Run.terminated] using ht)
        rw [(reachable_order h).flag, hmain] at hflag
        exact absurd hflag (by simp [Main.shutdownCalled])
    -- one consumer takes the only place in the wait set, so no producer is there
    obtain ⟨o, ho⟩ := hcon ⟨0, hc⟩
    refine hs (canStep_of_joined hmain fun p => ?_)
    rcases stuck_thread h hs (hcreated (.inl p)) with ⟨o', ho'⟩ | ht
    · exact absurd (hone _ _ _ _ ho ho') (by simp)
    · exact ht
  | shutdown =>
    refine canStep_of_mainStep ?_
    unfold mainStep
    rw [hmain]
    simp only
    split_ifs <;> rfl
  | _ => rw [hmain] at hm; exact absurd hm (by simp [Main.shutdownCalled])

/-- The consumer is blocked on the empty spool and the producer has not started. -/
theorem spooler1_never_deadlocks_onePair :
    ∃ s : Run (onePair .part3), (program (onePair .part3) fun _ => none).Reachable s ∧
      s.mon.phase (.inr (theConsumer .part3)) = .blocked .remove ∧ CanStep s := by
  obtain ⟨s, hr, hs⟩ := reachable_of_any (fun _ => none) (AnyStep _)
    (mainSteps 3 ++ steps 5 (.inr (theConsumer .part3)))
    (p := fun s => s.mon.phase (.inr (theConsumer .part3)) = .blocked .remove ∧
      s.main.shutdownCalled = false) (by decide)
  obtain ⟨hp, hm⟩ := of_decide_eq_true hs
  exact ⟨s, hr.of_restrict, hp, (spooler1_never_deadlocks rfl (le_refl 1) hr.of_restrict).2 hm⟩

end SystemProgramming.Spooler
