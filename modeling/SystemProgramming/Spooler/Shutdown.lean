import SystemProgramming.Spooler.Progress

/-!
# Shutdown

`spool_shutdown_efficient` sets the flag and broadcasts without `buf_lock`. A consumer that has
tested the flag before it was set and enters `pthread_cond_wait` after the broadcast sleeps
through the shutdown.

* `shutdown_strands_consumer`: a run of each build that ends with the consumer blocked and nothing
  left to happen.
* `shutdown_never_strands`: with one condition variable and at least two consumers this is
  repaired, since another consumer's signal follows its `NULL`. In every other case, if main
  broadcasts while no consumer stands between its test and its wait, a stuck state after shutdown
  has all consumers returned.
-/

namespace SystemProgramming.Spooler

open Lib Lib.Monitor

variable {cfg : Config} {mem : Nat → Ptr Str} {s s' : Run cfg}

/-! ## The lost wake-up -/

/-- Every state after shutdown in which nothing but a spurious wake-up can happen has all
consumers returned. -/
def NeverStrands (cfg : Config) : Prop :=
  ∀ mem s, (program cfg mem).Reachable s → s.main.shutdownReturned = true → ¬ CanStep s →
    ∀ c, s.con c = .returned

theorem not_canStep_iff : ¬ CanStep s ↔
    (mainStep s).isNone = true ∧ ∀ t w, (workerStep s t w).isNone = true := by
  constructor
  · intro h
    refine ⟨?_, ?_⟩
    · by_contra hm
      exact h (canStep_of_mainStep (by simpa [Option.isSome_iff_ne_none] using hm))
    · intro t w
      by_contra hw
      exact h (canStep_of_workerStep (by simpa [Option.isSome_iff_ne_none] using hw))
  · rintro ⟨hm, hw⟩ ⟨a, s', ha, hs⟩
    cases a with
    | worker t w =>
      have hs : workerStep s t w = some s' := hs
      have := hw t w
      rw [hs] at this
      exact absurd this (by simp)
    | spurious t => exact ha t rfl
    | main =>
      have hs : mainStep s = some s' := hs
      rw [hs] at hm
      exact absurd hm (by simp)

/-- The consumer takes the string, calls again, tests, and is overtaken by the whole of
shutdown before it waits. -/
def lateWait (b : Build) : List (Action (onePair b)) :=
  mainSteps 3 ++ steps 7 (.inl (theProducer b)) ++ steps 11 (.inr (theConsumer b)) ++
    mainSteps 4 ++ steps 2 (.inr (theConsumer b))

theorem not_neverStrands {b : Build}
    (h : (runFrom (AnyStep _) (.start (onePair b) fun _ => none) (lateWait b)).any (fun s =>
      s.main.shutdownReturned && decide (s.con (theConsumer b) ≠ .returned) &&
        (mainStep s).isNone && decide (∀ t w, (workerStep s t w).isNone = true)) = true) :
    ¬ NeverStrands (onePair b) := by
  intro hn
  obtain ⟨s, hr, hs⟩ := reachable_of_any _ _ _ h
  simp only [Bool.and_eq_true, decide_eq_true_eq] at hs
  obtain ⟨⟨⟨hm, hc⟩, hmain⟩, hw⟩ := hs
  exact hc (hn _ s hr.of_restrict hm (not_canStep_iff.mpr ⟨hmain, hw⟩) _)

/-- **Shutdown can strand a consumer**, in both builds. -/
theorem shutdown_strands_consumer :
    ¬ NeverStrands (onePair .part3) ∧ ¬ NeverStrands (onePair .part4) :=
  ⟨not_neverStrands (by decide), not_neverStrands (by decide)⟩

/-! ## After the flag is set -/

theorem code_remove_waits_shutdown {b : Build} {sp : Spool Str} (hb : b ≠ .part2)
    (hs : sp.shutdown = true) : (code b .remove).waits sp = false := by
  cases b with
  | part2 => exact absurd rfl hb
  | part3 | part4 => simp [code, spoolRemove, spoolRemoveCv1, spoolRemoveCv2, hs]

/-- With the flag set, no consumer starts to wait. -/
theorem next_waiting (hr : (program cfg mem).Reachable s) (hs : s.mon.shared.shutdown = true)
    (hn : Next s s') {c : Fin cfg.ncons} (hc : (s'.mon.phase (.inr c)).waiting = true) :
    (s.mon.phase (.inr c)).waiting = true := by
  have hgoto : ∀ {t : Thread cfg} {p : Phase (Op Str) (Ret Str)}, p.waiting = false →
      ((s.mon.goto t p).phase (.inr c)).waiting = true →
      (s.mon.phase (.inr c)).waiting = true := fun hp hw => by
    rw [goto_phase] at hw
    split_ifs at hw
    · rw [hp] at hw; exact absurd hw (by simp)
    · exact hw
  cases hn with
  | move t m hm =>
    rcases hm.waiting hc with h | ⟨o, rfl, hp, hw⟩
    · exact h
    · obtain rfl := ((reachable_calls hr).consumer c o (by rw [hp]; rfl)).1
      have hb : cfg.build ≠ .part2 := by
        have := (reachable_order hr).flag
        rw [hs] at this
        simpa using (Bool.and_eq_true_iff.mp this.symm).2
      rw [code_remove_waits_shutdown hb hs] at hw
      exact absurd hw (by simp)
  | spurious t o hp => exact hgoto rfl hc
  | insert p hp hlt => exact hgoto rfl hc
  | inserted p o r hp => exact hgoto rfl hc
  | remove d hp hcon => exact hgoto rfl hc
  | removed d o r hp => exact hgoto rfl hc
  | broadcast hm =>
    have hc' : (wake (code cfg.build) .conCv (s.mon.phase (.inr c))).waiting = true := hc
    rcases wake_cases (code cfg.build) .conCv (s.mon.phase (.inr c)) with ⟨o, h1, -, -⟩ | ⟨-, h2⟩
    · rw [h1]; rfl
    · rwa [h2] at hc'
  | _ => exact hc

/-! ## One condition variable, two consumers -/

/-- A consumer has returned, or has got `NULL` and signalled. -/
def nullSignalled (s : Run cfg) : Prop :=
  ∃ c, s.con c = .returned ∨
    ∃ o r, (s.mon.phase (.inr c)).finished = some (o, r) ∧ Consumer.got r = .returned

theorem shutdown_of_nullSignalled (hr : (program cfg mem).Reachable s) (h : nullSignalled s) :
    s.mon.shared.shutdown = true := by
  obtain ⟨c, hc | ⟨o, r, hf, hg⟩⟩ := h
  · exact shutdown_of_returned hr hc
  have hwf := reachable_wf (reachable_mon hr)
  have hop : (s.mon.phase (.inr c)).op = some o := by
    cases hp : s.mon.phase (.inr c) with
    | release o' r' | returned o' r' =>
      rw [hp] at hf
      exact congrArg (Option.map Prod.fst) hf
    | _ => rw [hp] at hf; exact absurd hf (by simp [Phase.finished])
  obtain rfl := ((reachable_calls hr).consumer c o hop).1
  have hmem : (Op.remove, r) ∈ callsOf (Sum.inr c) s.mon.log := by
    rw [hwf.calls]
    cases hp : s.mon.phase (.inr c) with
    | release o' r' =>
      rw [hp] at hf
      rw [← Option.some.inj hf]
      exact List.mem_append_right _ (List.mem_singleton_self _)
    | returned o' r' =>
      rw [hp] at hf
      exact List.mem_append_left _ ((reachable_books hr).last _ _ (by rw [hp]; exact hf))
    | _ => rw [hp] at hf; exact absurd hf (by simp [Phase.finished])
  exact (reachable_drained hr _ r (mem_log_of_callsOf hmem) hg).1

/-- **One condition variable**: once a `NULL` has been signalled, no consumer waits. -/
def NobodyWaits (s : Run cfg) : Prop :=
  nullSignalled s → ∀ c, (s.mon.phase (.inr c)).waiting = false

/-- Where a step is not a signal after a critical section, it makes nobody `nullSignalled`. -/
theorem nullSignalled_of_next (hb : cfg.build = .part3) (hn : Next s s') (h : nullSignalled s')
    (hsig : ∀ t m, Move (code cfg.build) s.mon t m → s'.mon = m →
      ∀ o r, s.mon.phase t ≠ .notify o r) : nullSignalled s := by
  obtain ⟨c, hc⟩ := h
  -- a step that changes neither the consumer nor what it has finished
  have hsame : s'.con c = s.con c →
      (s'.mon.phase (.inr c)).finished = (s.mon.phase (.inr c)).finished → nullSignalled s :=
    fun h1 h2 => ⟨c, by rwa [h1, h2] at hc⟩
  cases hn with
  | move t m hm =>
    refine hsame rfl (hm.finished (fun o => ?_) (hsig t m hm rfl) _)
    rw [hb, code1_notify]
    simp
  | spurious t o hp => exact hsame rfl (phase_goto (by rw [hp]; rfl) _)
  | insert p hp hlt => exact hsame rfl (phase_goto (by rw [hp]; rfl) _)
  | inserted p o r hp =>
    refine hsame rfl ?_
    show ((s.mon.goto (.inl p) .idle).phase (.inr c)).finished = _
    rw [goto_phase_of_ne _ _ (by simp)]
  | remove d hp hcon => exact hsame rfl (phase_goto (by rw [hp]; rfl) _)
  | removed d o r hp =>
    by_cases hcd : c = d
    · subst hcd
      rcases hc with hc | ⟨o', r', hf, -⟩
      · refine ⟨c, Or.inr ⟨o, r, by rw [hp]; rfl, ?_⟩⟩
        simpa using hc
      · have hf' : ((s.mon.goto (.inr c) .idle).phase (.inr c)).finished = some (o', r') := hf
        rw [goto_phase_self] at hf'
        exact absurd hf' (by simp [Phase.finished])
    · refine hsame (Function.update_of_ne hcd ..) ?_
      show ((s.mon.goto (.inr d) .idle).phase (.inr c)).finished = _
      rw [goto_phase_of_ne _ _ (by simpa using hcd)]
  | print d str hp hcon =>
    by_cases hcd : c = d
    · subst hcd
      rcases hc with hc | hc
      · exact absurd (show Function.update s.con c .calling c = .returned from hc) (by simp)
      · exact ⟨c, Or.inr hc⟩
    · exact hsame (Function.update_of_ne hcd ..) rfl
  | broadcast hm =>
    refine hsame rfl ?_
    show (wake (code cfg.build) .conCv (s.mon.phase (.inr c))).finished = _
    rcases wake_cases (code cfg.build) .conCv (s.mon.phase (.inr c)) with ⟨o, h1, -, h2⟩ | ⟨-, h2⟩
    · rw [h2, h1]; rfl
    · rw [h2]
  | _ => exact hsame rfl rfl

theorem next_nobodyWaits (hb : cfg.build = .part3) (hr : (program cfg mem).Reachable s)
    (h : NobodyWaits s) (hn : Next s s') : NobodyWaits s' := by
  intro hnull c
  by_cases hsig : ∃ t m o r, Move (code cfg.build) s.mon t m ∧ s'.mon = m ∧
      s.mon.phase t = .notify o r
  · obtain ⟨t, m, o, r, hm, rfl, hp⟩ := hsig
    have hmon := reachable_mon hr
    rw [hb] at hm hmon
    exact spooler1_nobody_waits hmon hm hp _
  · have hold := nullSignalled_of_next hb hn hnull fun t m hm he o r hp =>
      hsig ⟨t, m, o, r, hm, he, hp⟩
    by_contra hw
    have := next_waiting hr (shutdown_of_nullSignalled hr hold) hn (by simpa using hw)
    rw [h hold c] at this
    exact absurd this (by simp)

theorem reachable_nobodyWaits (hb : cfg.build = .part3) (h : (program cfg mem).Reachable s) :
    NobodyWaits s := by
  refine program_invariant (I := NobodyWaits) (fun _ _ => rfl)
    (fun _ _ hr hi hn => next_nobodyWaits hb hr hi hn) h

/-! ## A broadcast that finds nobody about to wait -/

/-- A thread that has tested and is about to enter `pthread_cond_wait`. -/
def aboutToWait : Phase (Op Str) (Ret Str) → Bool
  | .passOn _ | .wait _ => true
  | _ => false

/-- **When shutdown works**: with one condition variable and two consumers always, otherwise when
main broadcasts while no consumer is between its test and its wait. -/
def Careful (cfg : Config) (s s' : Run cfg) : Prop :=
  (cfg.build = .part3 ∧ 2 ≤ cfg.ncons) ∨
    (s.main = .broadcast → s'.main ≠ .broadcast →
      ∀ c, aboutToWait (s.mon.phase (.inr c)) = false)

instance : DecidableRel (Careful cfg) := fun s s' =>
  inferInstanceAs (Decidable ((cfg.build = .part3 ∧ 2 ≤ cfg.ncons) ∨
    (s.main = .broadcast → s'.main ≠ .broadcast →
      ∀ c, aboutToWait (s.mon.phase (.inr c)) = false)))

/-- After a careful broadcast no consumer waits. -/
def AllWoken (s : Run cfg) : Prop :=
  s.main.shutdownReturned = true → ∀ c, (s.mon.phase (.inr c)).waiting = false

theorem next_shutdownReturned (hb : cfg.build ≠ .part2) (hn : Next s s')
    (h : s'.main.shutdownReturned = true) :
    s.main.shutdownReturned = true ∨ (s.main = .broadcast ∧ s'.main ≠ .broadcast ∧
      s'.mon = s.mon.wakeAll (code cfg.build) .conCv) := by
  cases hn with
  | create i j m hm hm' =>
    rcases hm' with rfl | rfl <;> exact absurd h (by simp [Main.shutdownReturned])
  | joinProd | joinedProds | shutdown => exact absurd h (by simp [Main.shutdownReturned])
  | joinCon i j m hm hm' => left; rw [hm]; rfl
  | skip hb' => exact absurd hb' hb
  | broadcast hm => exact Or.inr ⟨hm, by simp, rfl⟩
  | _ => exact Or.inl h

theorem next_allWoken (hb : cfg.build ≠ .part2) (hr : (program cfg mem).Reachable s)
    (h : AllWoken s) (hn : Next s s') (hcare : s.main = .broadcast → s'.main ≠ .broadcast →
      ∀ c, aboutToWait (s.mon.phase (.inr c)) = false) : AllWoken s' := by
  intro hret c
  rcases next_shutdownReturned hb hn hret with hold | ⟨hm, hm', hmon⟩
  · have hflag : s.mon.shared.shutdown = true := by
      rw [(reachable_order hr).flag]
      cases hp : s.main with
      | joinCons | returned => simp [Main.shutdownCalled, hb]
      | _ => rw [hp] at hold; exact absurd hold (by simp [Main.shutdownReturned])
    by_contra hw
    have := next_waiting hr hflag hn (by simpa using hw)
    rw [h hold c] at this
    exact absurd this (by simp)
  · -- who is blocked wakes up, and nobody is about to block
    have hno := hcare hm hm' c
    rw [hmon]
    show (wake (code cfg.build) .conCv (s.mon.phase (.inr c))).waiting = false
    cases hp : s.mon.phase (.inr c) with
    | blocked o =>
      obtain rfl := ((reachable_calls hr).consumer c o (by rw [hp]; rfl)).1
      have hon : (code (α := Str) cfg.build .remove).retry.on = some .conCv := by
        cases hbuild : cfg.build with
        | part2 => exact absurd hbuild hb
        | part3 | part4 => rfl
      simp [wake, hon, Phase.waiting]
    | passOn o | wait o => rw [hp] at hno; exact absurd hno (by simp [aboutToWait])
    | _ => rfl

/-! ## Shutdown strands no consumer -/

/-- In a stuck state after shutdown a consumer is blocked or has returned. -/
theorem stuck_consumer (h : (program cfg mem).Reachable s) (hret : s.main.shutdownReturned = true)
    (hs : ¬ CanStep s) (c : Fin cfg.ncons) :
    (∃ o, s.mon.phase (.inr c) = .blocked o) ∨ s.con c = .returned := by
  have hcr : s.main.created (tid cfg (.inr c)) = true := by
    cases hp : s.main with
    | create => rw [hp] at hret; exact absurd hret (by simp [Main.shutdownReturned])
    | _ => rfl
  refine (stuck_thread h hs hcr).imp_right fun ht => ?_
  simpa [Run.terminated] using ht

/-- **Careful shutdowns strand nobody**: in a run whose steps are careful, every state after
shutdown in which nothing but a spurious wake-up can happen has all consumers returned. -/
theorem shutdown_never_strands (hb : cfg.build ≠ .part2)
    (h : ((program cfg mem).restrict (Careful cfg)).Reachable s)
    (hret : s.main.shutdownReturned = true) (hs : ¬ CanStep s) (c : Fin cfg.ncons) :
    s.con c = .returned := by
  have hr := h.of_restrict
  rcases stuck_consumer hr hret hs c with ⟨o, ho⟩ | hc
  swap
  · exact hc
  exfalso
  by_cases hp3 : cfg.build = .part3 ∧ 2 ≤ cfg.ncons
  · -- another consumer is not blocked too, so it has returned, and then nobody waits
    obtain ⟨hb3, h2⟩ := hp3
    obtain ⟨d, hdc⟩ : ∃ d : Fin cfg.ncons, d ≠ c := by
      by_cases hc0 : (c : Nat) = 0
      · exact ⟨⟨1, h2⟩, fun he => by rw [← he] at hc0; exact absurd hc0 (by simp)⟩
      · exact ⟨⟨0, by omega⟩, fun he => hc0 (by rw [← he])⟩
    rcases stuck_consumer hr hret hs d with ⟨o', ho'⟩ | hd
    · exact hdc (Sum.inr.inj (spooler1_one_blocked (hb3 ▸ reachable_mon hr) ho' ho))
    · have := reachable_nobodyWaits hb3 hr ⟨d, Or.inl hd⟩ c
      rw [ho] at this
      exact absurd this (by simp [Phase.waiting])
  · have hall : AllWoken s := by
      refine System.invariant (I := AllWoken) (fun s hi => ?_) (fun s s' hr hi hn => ?_) h
      · obtain rfl : s = .start cfg mem := hi
        exact fun _ _ => rfl
      · obtain ⟨⟨a, ha⟩, hcare⟩ := hn
        exact next_allWoken hb hr.of_restrict hi (next_of_step ha) (hcare.resolve_left hp3)
    have := hall hret c
    rw [ho] at this
    exact absurd this (by simp [Phase.waiting])

/-- The consumer waits before main sets the flag, and the broadcast wakes it. -/
theorem shutdown_never_strands_onePair :
    ∃ s : Run (onePair .part4), (program (onePair .part4) fun _ => none).Reachable s ∧
      s.main = .returned ∧ s.con (theConsumer .part4) = .returned := by
  obtain ⟨s, hr, hs⟩ := reachable_of_any (fun _ => none) (Careful (onePair .part4))
    (mainSteps 3 ++ steps 7 (.inl (theProducer .part4)) ++
      steps 13 (.inr (theConsumer .part4)) ++ mainSteps 4 ++ steps 6 (.inr (theConsumer .part4)) ++
      mainSteps 2)
    (p := fun s => s.main = .returned ∧
      (mainStep s).isNone = true ∧ ∀ t w, (workerStep s t w).isNone = true) (by decide)
  obtain ⟨hm, hstuck⟩ := of_decide_eq_true hs
  exact ⟨s, hr.of_restrict, hm,
    shutdown_never_strands (by decide) hr (by rw [hm]; rfl) (not_canStep_iff.mpr hstuck) _⟩

end SystemProgramming.Spooler
