import SystemProgramming.Lib.Monitor.Progress
import SystemProgramming.Spooler.Completion
import SystemProgramming.Spooler.Strings

/-!
# No run has a dead end

The spinning spooler can retry for ever, and with one condition variable two threads of a kind can
go on waking each other (`Endless.lean`). `Run.effort` bounds what a run of any build can do
besides: only locking, testing, signalling and waiting (`Syncs`) leave it as it is.

* `spooler_efforts_le`: in every run at most `maxEfforts` steps are more than synchronisation.
* `spooler_no_dead_end`: from every reachable state of every build, without the help of a spurious
  wake-up, the program can get to where all producers have returned and every string is printed.
-/

namespace SystemProgramming.Spooler

open Lib Lib.Monitor

variable {cfg : Config} {mem : Nat → Ptr Str} {s s' : Run cfg}

/-! ## What is left to do -/

/-- What a producer has still to do between its calls, with `left` strings not inserted. -/
def prodTail (left : Nat) (p : Phase (Op Str) (Ret Str)) : Nat :=
  if p.op = none then if left = 0 then 0 else 1 else if p.ran.isSome then 2 else 0

/-- What a consumer has still to do between its calls. -/
def conTail (k : Consumer) (p : Phase (Op Str) (Ret Str)) : Nat :=
  if p.op = none then
    match k with
    | .calling => 1
    | .printing _ => 2
    | .returned => 0
  else if p.ran.isSome then 3 else 0

/-- What thread `t` has still to do between its calls. -/
def Run.tail (s : Run cfg) : Thread cfg → Nat
  | .inl p => prodTail (cfg.nstrs - s.sent p) (s.mon.phase (.inl p))
  | .inr c => conTail (s.con c) (s.mon.phase (.inr c))

/-- The steps main has still to make. -/
def mainTail (cfg : Config) : Main → Nat
  | .create i => (nthreads cfg - i) + cfg.nprods + nthreads cfg + 5
  | .joinProds i => (cfg.nprods - i) + nthreads cfg + 4
  | .shutdown => nthreads cfg + 3
  | .broadcast => nthreads cfg + 2
  | .joinCons i => (nthreads cfg - i) + 1
  | .returned => 0

/-- **The steps left** that are more than synchronisation. -/
def Run.effort (s : Run cfg) : Nat :=
  4 * (∑ t, s.bodies t + stored s.mon.shared) + ∑ t, s.tail t + mainTail cfg s.main

/-- **A step that only synchronises**: a thread takes the mutex or gives it back, tests, signals,
waits or wakes up. -/
structure Syncs (s s' : Run cfg) : Prop where
  sent : s'.sent = s.sent
  con : s'.con = s.con
  main : s'.main = s.main
  stdout : s'.stdout = s.stdout
  log : s'.mon.log = s.mon.log
  op : ∀ t, (s'.mon.phase t).op = (s.mon.phase t).op

instance (s s' : Run cfg) : Decidable (Syncs s s') :=
  decidable_of_iff (s'.sent = s.sent ∧ s'.con = s.con ∧ s'.main = s.main ∧ s'.stdout = s.stdout ∧
    s'.mon.log = s.mon.log ∧ ∀ t, (s'.mon.phase t).op = (s.mon.phase t).op)
    ⟨fun ⟨h1, h2, h3, h4, h5, h6⟩ => ⟨h1, h2, h3, h4, h5, h6⟩,
      fun ⟨h1, h2, h3, h4, h5, h6⟩ => ⟨h1, h2, h3, h4, h5, h6⟩⟩

theorem tail_le (s : Run cfg) (t : Thread cfg) : s.tail t ≤ 3 := by
  cases t with
  | inl p =>
    simp only [Run.tail, prodTail]
    split_ifs <;> omega
  | inr c =>
    simp only [Run.tail, conTail]
    split_ifs
    · split <;> omega
    · omega
    · omega

/-- Phases of the same calls, with the same results, leave what is left. -/
theorem tail_of_phases (hsent : s'.sent = s.sent) (hcon : s'.con = s.con)
    (hop : ∀ t, (s'.mon.phase t).op = (s.mon.phase t).op)
    (hran : ∀ t, (s'.mon.phase t).ran = (s.mon.phase t).ran) (t : Thread cfg) :
    s'.tail t = s.tail t := by
  cases t with
  | inl p => simp only [Run.tail, prodTail, hop, hran, hsent]
  | inr c => simp only [Run.tail, conTail, hop, hran, hcon]

theorem effort_of_phases (hsent : s'.sent = s.sent) (hcon : s'.con = s.con)
    (hmain : s'.main = s.main) (hstored : stored s'.mon.shared = stored s.mon.shared)
    (hop : ∀ t, (s'.mon.phase t).op = (s.mon.phase t).op)
    (hran : ∀ t, (s'.mon.phase t).ran = (s.mon.phase t).ran) : s'.effort = s.effort := by
  have h1 : ∑ u, s'.bodies u = ∑ u, s.bodies u := Finset.sum_congr rfl fun u _ =>
    (weights_of_phases s s' hsent hcon hop hran u).1
  have h2 : ∑ u, s'.tail u = ∑ u, s.tail u := Finset.sum_congr rfl fun u _ =>
    tail_of_phases hsent hcon hop hran u
  unfold Run.effort
  rw [h1, h2, hmain, hstored]

/-! ## What a step leaves -/

/-- **A body** leaves less to do. -/
theorem effort_lt_of_body (hr : (program cfg mem).Reachable s) {t : Thread cfg} {o : Op Str}
    (hm : Move (code cfg.build) s.mon t s'.mon) (hp : s.mon.phase t = .body o)
    (hsent : s'.sent = s.sent) (hcon : s'.con = s.con) (hmain : s'.main = s.main) :
    s'.effort < s.effort := by
  have hlt := bodies_of_body hr hp hsent hcon (by rw [hm.of_body hp]) (by rw [hm.of_body hp]; rfl)
  have htail : ∑ u, s'.tail u + s.tail t = ∑ u, s.tail u + s'.tail t := sum_change fun u hu => by
    have hphase : s'.mon.phase u = s.mon.phase u := by
      rw [hm.of_body hp]
      exact Function.update_of_ne hu ..
    cases u with
    | inl p => simp only [Run.tail, hphase, hsent]
    | inr c => simp only [Run.tail, hphase, hcon]
  -- the four for a body pay for what the thread does with the result
  have hle := tail_le s' t
  unfold Run.effort
  rw [hmain]
  omega

/-- **A move of the spooler** runs a body, or only synchronises. -/
theorem effort_of_move (hr : (program cfg mem).Reachable s) {t : Thread cfg}
    {m : State (Thread cfg) (Op Str) (Spool Str) (Ret Str)}
    (hm : Move (code cfg.build) s.mon t m) :
    (Syncs s { s with mon := m } ∧ Run.effort { s with mon := m } = s.effort) ∨
      Run.effort { s with mon := m } < s.effort := by
  by_cases hbody : ∃ o, s.mon.phase t = .body o
  · obtain ⟨o, hp⟩ := hbody
    exact Or.inr (effort_lt_of_body hr hm hp rfl rfl rfl)
  · left
    have hnot : ∀ o, s.mon.phase t ≠ .body o := fun o ho => hbody ⟨o, ho⟩
    obtain ⟨hshared, hlog⟩ : m.shared = s.mon.shared ∧ m.log = s.mon.log := by
      rcases hm.data with h | ⟨o, ho, -⟩
      · exact h
      · exact absurd ho (hnot o)
    exact ⟨⟨rfl, rfl, rfl, rfl, hlog, hm.op⟩,
      effort_of_phases rfl rfl rfl (congrArg stored hshared) hm.op (hm.ran hnot)⟩

/-- A step of one thread between its calls. -/
theorem effort_lt_of_thread {t : Thread cfg} (hmain : s'.main = s.main)
    (hstored : stored s'.mon.shared = stored s.mon.shared)
    (hother : ∀ u, u ≠ t → s'.bodies u = s.bodies u ∧ s'.tail u = s.tail u)
    (hb : s'.bodies t = s.bodies t) (hlt : s'.tail t < s.tail t) : s'.effort < s.effort := by
  have h1 : ∑ u, s'.bodies u = ∑ u, s.bodies u := Finset.sum_congr rfl fun u _ => by
    by_cases hu : u = t
    · rw [hu, hb]
    · exact (hother u hu).1
  have h2 := sum_change fun u hu => (hother u hu).2
  unfold Run.effort
  rw [h1, hmain, hstored]
  omega

/-- A step of a producer between its calls. -/
theorem effort_lt_of_producer {p : Fin cfg.nprods} {q : Phase (Op Str) (Ret Str)}
    (hmon : s'.mon = s.mon.goto (.inl p) q) (hmain : s'.main = s.main) (hcon : s'.con = s.con)
    (hsent : ∀ p', p' ≠ p → s'.sent p' = s.sent p')
    (hb : prodBodies (cfg.nstrs - s'.sent p) q = s.bodies (.inl p))
    (hlt : prodTail (cfg.nstrs - s'.sent p) q < s.tail (.inl p)) : s'.effort < s.effort := by
  have hself : s'.mon.phase (.inl p) = q := by rw [hmon, goto_phase_self]
  refine effort_lt_of_thread (t := .inl p) hmain (by rw [hmon]; rfl) (fun u hu => ?_) ?_ ?_
  · have hphase : s'.mon.phase u = s.mon.phase u := by rw [hmon, goto_phase_of_ne _ _ hu]
    cases u with
    | inl p' =>
      have hp' := hsent p' fun he => hu (he ▸ rfl)
      simp only [Run.bodies, Run.tail, hphase, hp', and_self]
    | inr c => simp only [Run.bodies, Run.tail, hphase, hcon, and_self]
  · simpa only [Run.bodies, hself] using hb
  · simpa only [Run.tail, hself] using hlt

/-- A step of a consumer between its calls. -/
theorem effort_lt_of_consumer {c : Fin cfg.ncons} {q : Phase (Op Str) (Ret Str)}
    (hmon : s'.mon = s.mon.goto (.inr c) q) (hmain : s'.main = s.main) (hsent : s'.sent = s.sent)
    (hcon : ∀ c', c' ≠ c → s'.con c' = s.con c')
    (hb : conBodies (s'.con c) q = s.bodies (.inr c))
    (hlt : conTail (s'.con c) q < s.tail (.inr c)) : s'.effort < s.effort := by
  have hself : s'.mon.phase (.inr c) = q := by rw [hmon, goto_phase_self]
  refine effort_lt_of_thread (t := .inr c) hmain (by rw [hmon]; rfl) (fun u hu => ?_) ?_ ?_
  · have hphase : s'.mon.phase u = s.mon.phase u := by rw [hmon, goto_phase_of_ne _ _ hu]
    cases u with
    | inl p => simp only [Run.bodies, Run.tail, hphase, hsent, and_self]
    | inr c' =>
      have hc' := hcon c' fun he => hu (he ▸ rfl)
      simp only [Run.bodies, Run.tail, hphase, hc', and_self]
  · simpa only [Run.bodies, hself] using hb
  · simpa only [Run.tail, hself] using hlt

/-- **A step of a worker thread between its calls** leaves less to do. -/
theorem effort_lt_of_outside {t : Thread cfg} {w : Option (Thread cfg)}
    (ho : s.mon.phase t = .idle ∨ ∃ o r, s.mon.phase t = .returned o r)
    (h : workerStep s t w = some s') : s'.effort < s.effort := by
  unfold workerStep at h
  split at h
  · rename_i hp
    split_ifs at h
    cases t with
    | inl p =>
      simp only at h
      split_ifs at h with hn
      obtain rfl := Option.some.inj h
      refine effort_lt_of_producer rfl rfl rfl (fun _ _ => rfl) ?_ ?_
      · simp [Run.bodies, hp, prodBodies, Phase.ran]
      · simp [Run.tail, hp, prodTail, Phase.op, Phase.ran, show cfg.nstrs - s.sent p ≠ 0 by omega]
    | inr c =>
      simp only at h
      split at h
      · rename_i hc
        obtain rfl := Option.some.inj h
        refine effort_lt_of_consumer rfl rfl rfl (fun _ _ => rfl) ?_ ?_
        · simp [Run.bodies, hp, conBodies, Phase.ran, hc]
        · simp [Run.tail, hp, conTail, Phase.op, Phase.ran, hc]
      · rename_i str hc
        obtain rfl := Option.some.inj h
        refine effort_lt_of_consumer (goto_eq_self hp).symm rfl rfl
          (fun c' hc' => Function.update_of_ne hc' ..) ?_ ?_
        · simp [Run.bodies, hp, conBodies, Phase.ran, hc]
        · simp [Run.tail, hp, conTail, Phase.op, hc]
      · exact absurd h (by simp)
  · rename_i o r hp
    cases t with
    | inl p =>
      obtain rfl := Option.some.inj h
      refine effort_lt_of_producer rfl rfl rfl (fun p' hp' => Function.update_of_ne hp' ..) ?_ ?_
      · simp only [Run.bodies, hp, prodBodies, Phase.ran, Function.update_self]
        simp
        omega
      · simp only [Run.tail, hp, prodTail, Phase.op, Phase.ran, Function.update_self]
        simp
        split_ifs <;> omega
    | inr c =>
      obtain rfl := Option.some.inj h
      refine effort_lt_of_consumer rfl rfl rfl (fun c' hc' => Function.update_of_ne hc' ..) ?_ ?_
      · simp [Run.bodies, hp, conBodies, Phase.ran]
      · simp only [Run.tail, hp, conTail, Phase.op, Phase.ran, Function.update_self]
        simp
        split <;> omega
  · rename_i hidle hreturned
    rcases ho with hp | ⟨o, r, hp⟩
    · exact absurd hp hidle
    · exact absurd hp (hreturned o r)

/-- **A step of a worker thread** only synchronises, or leaves less to do. -/
theorem effort_of_workerStep (hr : (program cfg mem).Reachable s) {t : Thread cfg}
    {w : Option (Thread cfg)} (h : workerStep s t w = some s') :
    (Syncs s s' ∧ s'.effort = s.effort) ∨ s'.effort < s.effort := by
  by_cases ho : s.mon.phase t = .idle ∨ ∃ o r, s.mon.phase t = .returned o r
  · exact Or.inr (effort_lt_of_outside ho h)
  · unfold workerStep at h
    split at h
    · rename_i hp
      exact absurd (Or.inl hp) ho
    · rename_i o r hp
      exact absurd (Or.inr ⟨o, r, hp⟩) ho
    · obtain ⟨m, hm, rfl⟩ := Option.map_eq_some_iff.mp h
      exact effort_of_move hr ((step_iff _).mp ⟨w, hm⟩)

/-- **A step of main** leaves less to do. -/
theorem effort_lt_of_mainStep (h : mainStep s = some s') : s'.effort < s.effort := by
  have hlower : ∀ m, mainTail cfg m < mainTail cfg s.main →
      Run.effort { s with main := m } < s.effort := fun m hm => Nat.add_lt_add_left hm _
  unfold mainStep at h
  split at h
  · rename_i i hm
    split_ifs at h <;> obtain rfl := Option.some.inj h <;> refine hlower _ ?_ <;> rw [hm] <;>
      simp only [mainTail, nthreads] <;> omega
  · rename_i i hm
    split_ifs at h <;> obtain rfl := Option.some.inj h <;> refine hlower _ ?_ <;> rw [hm] <;>
      simp only [mainTail, nthreads] <;> omega
  · rename_i hm
    split_ifs at h <;> obtain rfl := Option.some.inj h
    · refine hlower _ ?_
      rw [hm]
      simp only [mainTail, nthreads]
      omega
    · refine Nat.lt_of_lt_of_eq (hlower .broadcast ?_) rfl
      rw [hm]
      simp only [mainTail, nthreads]
      omega
  · rename_i hm
    obtain rfl := Option.some.inj h
    have heq : Run.effort { s with
        mon := s.mon.wakeAll (code cfg.build) .conCv
        main := .joinCons cfg.nprods } = Run.effort { s with main := .joinCons cfg.nprods } :=
      effort_of_phases rfl rfl rfl rfl (fun t => (wakeAll_op _ _ t).1) (wakeAll_ran _ _)
    rw [heq]
    refine hlower _ ?_
    rw [hm]
    simp only [mainTail, nthreads]
    omega
  · rename_i i hm
    split_ifs at h <;> obtain rfl := Option.some.inj h <;> refine hlower _ ?_ <;> rw [hm] <;>
      simp only [mainTail, nthreads] <;> omega
  · exact absurd h (by simp)

/-- **Every step** only synchronises, or leaves less to do. -/
theorem effort_of_step (hr : (program cfg mem).Reachable s) {a : Action cfg}
    (h : step s a = some s') : (Syncs s s' ∧ s'.effort = s.effort) ∨ s'.effort < s.effort := by
  cases a with
  | worker t w => exact effort_of_workerStep hr h
  | main => exact Or.inr (effort_lt_of_mainStep h)
  | spurious t =>
    simp only [step] at h
    split at h
    · rename_i o hp
      obtain rfl := Option.some.inj h
      have hop : ∀ u, ((s.mon.goto t (.woken o)).phase u).op = (s.mon.phase u).op :=
        phase_goto (f := Phase.op) (by rw [hp]; rfl)
      exact Or.inl ⟨⟨rfl, rfl, rfl, rfl, rfl, hop⟩,
        effort_of_phases rfl rfl rfl rfl hop (phase_goto (f := Phase.ran) (by rw [hp]; rfl))⟩
    · exact absurd h (by simp)

/-! ## How much a run can do -/

/-- How many steps of the schedule `as` are more than synchronisation. -/
def efforts : Run cfg → List (Action cfg) → Nat
  | _, [] => 0
  | s, a :: as =>
    match step s a with
    | some s' => (if Syncs s s' then 0 else 1) + efforts s' as
    | none => 0

/-- The efforts of a run against what its steps leave. -/
theorem efforts_add_effort_le {as : List (Action cfg)} :
    ∀ {s s' : Run cfg}, (program cfg mem).Reachable s → runFrom (AnyStep cfg) s as = some s' →
      efforts s as + s'.effort ≤ s.effort := by
  induction as with
  | nil =>
    intro s s' _ h
    obtain rfl := Option.some.inj h
    exact Nat.le_of_eq (Nat.zero_add _)
  | cons a as ih =>
    intro s s' hr h
    obtain ⟨s₁, h1, h2⟩ := Option.bind_eq_some_iff.mp h
    rw [if_pos trivial] at h2
    have hrest := ih (hr.step ⟨a, h1⟩) h2
    simp only [efforts, h1]
    rcases effort_of_step hr h1 with ⟨hsyncs, heq⟩ | hlt
    · rw [if_pos hsyncs]
      omega
    · split_ifs <;> omega

/-- The most steps of a run that can be more than synchronisation. -/
def maxEfforts (cfg : Config) : Nat :=
  8 * (cfg.nprods * cfg.nstrs) + 4 * cfg.ncons + 3 * nthreads cfg + cfg.nprods + 5

theorem effort_start_le (cfg : Config) (mem : Nat → Ptr Str) :
    (Run.start cfg mem).effort ≤ maxEfforts cfg := by
  have htail : ∑ t, (Run.start cfg mem).tail t ≤ nthreads cfg := by
    refine (Finset.sum_le_card_nsmul _ _ 1 fun t _ => ?_).trans_eq ?_
    · cases t with
      | inl p =>
        show (if cfg.nstrs - 0 = 0 then 0 else 1) ≤ 1
        split_ifs
        · exact Nat.zero_le 1
        · exact le_refl 1
      | inr c => exact le_refl 1
    · rw [Finset.card_univ, card_thread]
      exact Nat.mul_one _
  have hstored : stored (Run.start cfg mem).mon.shared = 0 := Nat.sub_self _
  have hmain : (Run.start cfg mem).main = .create 0 := rfl
  unfold Run.effort maxEfforts
  rw [sum_bodies_start, hstored, hmain]
  simp only [mainTail]
  omega

/-- **A run can only go on for ever by synchronising**: in every run of every build at most
`maxEfforts` steps call, run a body, return, print or are main's. -/
theorem spooler_efforts_le {as : List (Action cfg)}
    (h : runFrom (AnyStep cfg) (.start cfg mem) as = some s) :
    efforts (.start cfg mem) as ≤ maxEfforts cfg := by
  have h1 := efforts_add_effort_le (.start rfl) h
  have h2 := effort_start_le cfg mem
  omega

/-- The consumer spins on the empty buffer. -/
def spinning : List (Action (onePair .part2)) :=
  mainSteps 3 ++ steps 31 (.inr (theConsumer .part2))

/-- Only the call and the steps of main count. -/
theorem spooler_efforts_le_onePair :
    efforts (.start (onePair .part2) fun _ => none) spinning = 4 ∧
      efforts (.start (onePair .part2) fun _ => none) spinning ≤ maxEfforts (onePair .part2) := by
  obtain ⟨s, hs⟩ := Option.isSome_iff_exists.mp (show (runFrom (AnyStep _)
    (.start (onePair .part2) fun _ => none) spinning).isSome = true by decide)
  exact ⟨by decide, spooler_efforts_le hs⟩

/-! ## Who waits for nothing -/

theorem producerAwake_iff {α : Type} {p : Phase (Op α) (Ret α)} : producerAwake p = true ↔
    ∃ item, p = .lock (.insert item) ∨ p = .woken (.insert item) := by
  constructor
  · intro h
    cases p with
    | lock o | woken o =>
      cases o with
      | insert item => exact ⟨item, by simp⟩
      | remove => exact absurd h (by simp [producerAwake])
    | _ => exact absurd h (by simp [producerAwake])
  · rintro ⟨item, rfl | rfl⟩ <;> rfl

theorem consumerAwake_iff {α : Type} {p : Phase (Op α) (Ret α)} :
    consumerAwake p = true ↔ p = .lock .remove ∨ p = .woken .remove := by
  constructor
  · intro h
    cases p with
    | lock o | woken o =>
      cases o with
      | insert item => exact absurd h (by simp [consumerAwake])
      | remove => simp
    | _ => exact absurd h (by simp [consumerAwake])
  · rintro (rfl | rfl) <;> rfl

/-- **Nobody sleeps without cause**: with `buf_lock` free, a blocked thread has to wait, or a
thread that does not is about to take the lock. -/
theorem stops_or_awake {α ι : Type} [Fintype ι] [DecidableEq ι] {b : Build} {mem : Nat → Ptr α}
    {n : Nat} {s : State ι (Op α) (Spool α) (Ret α)} (h : (spooler b ι mem n).Reachable s)
    (hf : s.owner = none) {t : ι} {o : Op α} (ht : s.phase t = .blocked o) :
    Stops o s.shared ∨
      ∃ u o', (s.phase u = .lock o' ∨ s.phase u = .woken o') ∧ ¬ Stops o' s.shared := by
  have hwf := reachable_wf h
  cases b with
  | part2 =>
    -- who finds that it has to wait spins
    obtain ⟨c, d, hr⟩ : ∃ c d, (code .part2 o).retry = .wait c d := by
      have := hwf.coherent t
      rwa [ht] at this
    cases o <;> exact absurd hr (by simp [code, spoolInsert, spoolInsertSafe, spoolRemove,
      spoolRemoveSafe])
  | part3 =>
    rcases blocked_stops code1_retry code1_notify (spooler_outline .part3 n mem) h t o ht with
      hs | ⟨u, o', r, hu⟩
    · exact Or.inl hs
    · exact absurd (hwf.mutex.out_of_free hf u) (by simp [hu, Phase.holds])
  | part4 =>
    by_cases hs : Stops o s.shared
    · exact Or.inl hs
    right
    cases o with
    | insert item =>
      have hroom : s.shared.capacity ≠ 0 := fun h0 => hs (spoolFull_iff.mpr h0)
      have hpos : 0 < count producerAwake s.phase := by
        have := slots_le_awake h hf ht
        omega
      obtain ⟨u, hu⟩ := count_pos_iff.mp hpos
      obtain ⟨item', hp⟩ := producerAwake_iff.mp hu
      exact ⟨u, _, hp, hs⟩
    | remove =>
      have hring := ((spooler_outline .part4 n mem).holds h).data.ring
      have hitem : stored s.shared ≠ 0 := fun h0 => hs ((spoolEmpty_iff hring).mpr h0)
      have hpos : 0 < count consumerAwake s.phase := by
        have := items_le_awake h hf ht
        omega
      obtain ⟨u, hu⟩ := count_pos_iff.mp hpos
      exact ⟨u, _, consumerAwake_iff.mp hu, hs⟩

/-! ## What a run can get to -/

/-- `s` can get to `s'` without the help of a spurious wake-up. -/
def Leads : Run cfg → Run cfg → Prop :=
  Relation.ReflTransGen fun s s' => ∃ a, Action.isSpurious a = false ∧ step s a = some s'

theorem Leads.reachable (h : Leads s s') (hr : (program cfg mem).Reachable s) :
    (program cfg mem).Reachable s' := by
  induction h with
  | refl => exact hr
  | tail _ hs ih =>
    obtain ⟨a, -, ha⟩ := hs
    exact ih.step ⟨a, ha⟩

theorem Leads.effort_le (h : Leads s s') (hr : (program cfg mem).Reachable s) :
    s'.effort ≤ s.effort := by
  induction h with
  | refl => exact le_refl _
  | tail hl hs ih =>
    obtain ⟨a, -, ha⟩ := hs
    rcases effort_of_step (Leads.reachable hl hr) ha with ⟨-, heq⟩ | hlt
    · exact heq.le.trans ih
    · exact hlt.le.trans ih

/-- Moves of the spooler are steps of the program. -/
theorem leads_of_moves {m m' : State (Thread cfg) (Op Str) (Spool Str) (Ret Str)}
    (h : Moves (code cfg.build) m m') :
    ∀ {s : Run cfg}, s.mon = m → Leads s { s with mon := m' } := by
  intro s hs
  induction h with
  | refl => rw [← hs]; exact .refl
  | tail _ hm ih =>
    obtain ⟨t, hm⟩ := hm
    obtain ⟨w, hw⟩ := workerStep_of_move (s := { s with mon := _ }) hm
    exact ih.tail ⟨.worker t w, rfl, hw⟩

/-- Nothing that can follow leaves less to do. -/
def Still (s : Run cfg) : Prop := ∀ s', Leads s s' → s.effort ≤ s'.effort

theorem Still.not_lt (h : Still s) {a : Action cfg} (ha : a.isSpurious = false)
    (hs : step s a = some s') : ¬ s'.effort < s.effort :=
  Nat.not_lt.mpr (h s' (.single ⟨a, ha, hs⟩))

/-- Where nothing leaves less to do, main has created all threads. -/
theorem Still.created (h : Still s) (i : Nat) : s.main.created i = true := by
  cases hm : s.main with
  | create j =>
    obtain ⟨s', hs'⟩ : ∃ s', mainStep s = some s' := by
      unfold mainStep
      rw [hm]
      simp only
      split_ifs <;> exact ⟨_, rfl⟩
    exact absurd (effort_lt_of_mainStep hs') (h.not_lt (a := .main) rfl hs')
  | _ => rfl

/-- Where nothing leaves less to do and `buf_lock` is free, a thread has terminated or has to
wait. -/
theorem Still.thread (h : Still s) (hr : (program cfg mem).Reachable s)
    (hf : s.mon.owner = none) (t : Thread cfg) : s.terminated t = true ∨
      ∃ o, (s.mon.phase t).op = some o ∧ (s.mon.phase t).ran = none ∧ Stops o s.mon.shared := by
  have hmon := reachable_mon hr
  have hout := (reachable_wf hmon).mutex.out_of_free hf
  have hdata := ((spooler_outline cfg.build cfg.bufsize mem).holds hmon).data
  have hworker : ∀ u, (workerStep s u none).isSome = true →
      ¬ (s.mon.phase u = .idle ∨ ∃ o r, s.mon.phase u = .returned o r) := fun u hu ho => by
    obtain ⟨s', hs'⟩ := Option.isSome_iff_exists.mp hu
    exact h.not_lt (a := .worker u none) rfl hs' (effort_lt_of_outside ho hs')
  -- who is about to take the lock and does not have to wait could run its body
  have hstops : ∀ u o, s.mon.phase u = .lock o ∨ s.mon.phase u = .woken o →
      Stops o s.mon.shared := fun u o hp => by
    cases hw : (code cfg.build o).waits s.mon.shared with
    | true => exact (spooler_outline cfg.build cfg.bufsize mem).test_stop _ o _ hdata hw
    | false =>
      obtain ⟨m, hmoves, hbody⟩ := exists_body hp hf hw
      have hleads := leads_of_moves (s := s) hmoves rfl
      obtain ⟨m', hm⟩ : ∃ m', Move (code cfg.build) m u m' := ⟨_, .body o hbody⟩
      obtain ⟨w, hw'⟩ := workerStep_of_move (s := { s with mon := m }) hm
      have hle := hleads.effort_le hr
      have hstill := h { s with mon := m' } (hleads.tail ⟨.worker u w, rfl, hw'⟩)
      have hlt : Run.effort { s with mon := m' } < Run.effort { s with mon := m } :=
        effort_lt_of_body (hleads.reachable hr) hm hbody rfl rfl rfl
      omega
  cases hp : s.mon.phase t with
  | idle =>
    left
    by_contra ht
    exact hworker t (workerStep_of_idle (h.created _) hp (by simpa using ht)) (Or.inl hp)
  | returned o r => exact absurd (Or.inr ⟨o, r, hp⟩) (hworker t (workerStep_of_returned hp))
  | lock o => exact Or.inr ⟨o, rfl, rfl, hstops t o (Or.inl hp)⟩
  | woken o => exact Or.inr ⟨o, rfl, rfl, hstops t o (Or.inr hp)⟩
  | blocked o =>
    refine Or.inr ⟨o, rfl, rfl, ?_⟩
    rcases stops_or_awake hmon hf hp with hs | ⟨u, o', hu, hs⟩
    · exact hs
    · exact absurd (hstops u o' hu) hs
  | _ => exact absurd (hout t) (by simp [hp, Phase.holds])

/-- All producers have returned, and every string is printed. -/
def AllPrinted (s : Run cfg) : Prop :=
  (∀ p, s.terminated (.inl p) = true) ∧ (s.stdout.map Prod.snd).Perm (prodStrings cfg)

/-- **Where nothing leaves less to do**, all is printed. -/
theorem Still.allPrinted (hc : 1 ≤ cfg.ncons) (h : Still s) (hr : (program cfg mem).Reachable s)
    (hf : s.mon.owner = none) : AllPrinted s := by
  have hcalls := reachable_calls hr
  have hwf := reachable_wf (reachable_mon hr)
  have hdata := ((spooler_outline cfg.build cfg.bufsize mem).holds (reachable_mon hr)).data
  have hthread := h.thread hr hf
  -- the first consumer finds nothing to remove
  have hempty : spoolEmpty s.mon.shared = true := by
    rcases hthread (.inr ⟨0, hc⟩) with ht | ⟨o, ho, -, hs⟩
    · have hret : s.con ⟨0, hc⟩ = .returned := by simpa [Run.terminated] using ht
      obtain ⟨r, hmem, hg⟩ := (reachable_books hr).nulls _ hret
      exact (spoolEmpty_iff_contents hdata.ring).mpr
        (reachable_drained hr _ r (hwf.mem_log_of_returns hmem) hg).2
    · obtain ⟨rfl, -⟩ := hcalls.consumer _ o ho
      exact hs
  have hterm : ∀ p, s.terminated (.inl p) = true := fun p => by
    rcases hthread (.inl p) with ht | ⟨o, ho, -, hs⟩
    · exact ht
    · -- an empty buffer of at least one slot is not full
      obtain ⟨rfl, -⟩ := hcalls.producer p o ho
      have hfull : s.mon.shared.capacity = 0 := spoolFull_iff.mp hs
      have hroom := (spoolEmpty_iff hdata.ring).mp hempty
      have hsize := hdata.size
      have hpos := cfg.bufsize_pos
      unfold stored at hroom
      omega
  have hheld : (List.finRange cfg.ncons).flatMap s.held = [] := by
    refine List.flatMap_eq_nil_iff.mpr fun c _ => ?_
    rcases hthread (.inr c) with ht | ⟨o, ho, hran, -⟩
    · have hret : s.con c = .returned := by simpa [Run.terminated] using ht
      have hop : (s.mon.phase (.inr c)).op = none := by
        rw [Option.eq_none_iff_forall_ne_some]
        intro o ho
        have := (hcalls.consumer c o ho).2
        rw [hret] at this
        exact absurd this (by simp)
      simp [Run.held, hret, op_eq_none_iff.mp hop, Phase.ran]
    · obtain ⟨-, hcon⟩ := hcalls.consumer c o ho
      simp [Run.held, hcon, hran]
  obtain ⟨q, hq, -, hperm⟩ := placed_perm hr
  rw [(spoolEmpty_iff_contents hdata.ring).mp hempty] at hq
  obtain rfl : q = [] := List.map_eq_nil_iff.mp hq.symm
  rw [hheld, begunStrings_of_terminated hr hterm, List.append_nil, List.append_nil] at hperm
  exact ⟨hterm, hperm⟩

/-- **No run has a dead end**: from every reachable state of every build, without the help of a
spurious wake-up, the program can get to where all producers have returned and every string of
every producer is printed, each once. -/
theorem spooler_no_dead_end (hc : 1 ≤ cfg.ncons) (hr : (program cfg mem).Reachable s) :
    ∃ s', Leads s s' ∧ AllPrinted s' := by
  suffices hn : ∀ n (s : Run cfg), (program cfg mem).Reachable s → s.effort < n →
      ∃ s', Leads s s' ∧ AllPrinted s' from hn _ s hr (Nat.lt_succ_self _)
  intro n
  induction n with
  | zero => exact fun _ _ hlt => absurd hlt (Nat.not_lt_zero _)
  | succ n ih =>
    intro s hr hlt
    -- whoever is in the mutex gives it back first
    obtain ⟨m, hmoves, hf⟩ := (reachable_wf (reachable_mon hr)).exists_free
    have hleads := leads_of_moves (s := s) hmoves rfl
    have hr₁ := hleads.reachable hr
    have hle := hleads.effort_le hr
    by_cases hstill : Still { s with mon := m }
    · exact ⟨_, hleads, hstill.allPrinted hc hr₁ hf⟩
    · obtain ⟨s₂, hleads₂, hless⟩ : ∃ s₂, Leads { s with mon := m } s₂ ∧
          s₂.effort < Run.effort { s with mon := m } := by
        simpa [Still] using hstill
      obtain ⟨s', hrun, hdone⟩ := ih s₂ (hleads₂.reachable hr₁) (by omega)
      exact ⟨s', hleads.trans (hleads₂.trans hrun), hdone⟩

/-- The spinning consumer gets its string after all. -/
theorem spooler_no_dead_end_onePair :
    ∃ s s' : Run (onePair .part2), (program (onePair .part2) fun _ => none).Reachable s ∧
      s.mon.phase (.inr (theConsumer .part2)) = .lock .remove ∧ s.stdout = [] ∧
        Leads s s' ∧ AllPrinted s' := by
  obtain ⟨s, hr, hs⟩ := reachable_of_any (fun _ => none) (AnyStep _) spinning
    (p := fun s => s.mon.phase (.inr (theConsumer .part2)) = .lock .remove ∧ s.stdout = [])
    (by decide)
  obtain ⟨hp, hout⟩ := of_decide_eq_true hs
  obtain ⟨s', hleads, hdone⟩ := spooler_no_dead_end (le_refl 1) hr.of_restrict
  exact ⟨s, s', hr.of_restrict, hp, hout, hleads, hdone⟩

end SystemProgramming.Spooler
