import SystemProgramming.Lib.Monitor.Rank
import SystemProgramming.Spooler.Shutdown

/-!
# The program with two condition variables completes

`Run.rank` bounds the steps that the program of the build `PART4` can still make. An insert that
has still to come weighs twice as much as a stored item, since it makes one, and every body lowers
the weights by at least one. Between two bodies the buffer stays as it is, and then a thread that
finds it has to wait wakes a thread of the other kind, which does not.

* `spooler2_steps_le`: every run is at most as long as a bound in the numbers of threads and
  strings, plus seven steps for each spurious wake-up.
* `spooler2_completes`: a run with careful shutdowns that cannot go on has printed every string
  once, and main has returned.
-/

namespace SystemProgramming.Spooler

open Lib Lib.Monitor

variable {cfg : Config} {mem : Nat → Ptr Str} {s s' : Run cfg}

/-! ## The weight of a thread -/

/-- The number of threads. -/
def nthreads (cfg : Config) : Nat := cfg.nprods + cfg.ncons

theorem card_thread : Fintype.card (Thread cfg) = nthreads cfg := by
  simp [nthreads]

/-- The weight of one body: more than all that can happen until the next. -/
def bodyWeight (cfg : Config) : Nat := 17 * nthreads cfg + 1

/-- The bodies a producer has still to run, counted twice, with `left` strings not inserted. -/
def prodBodies (left : Nat) (p : Phase (Op Str) (Ret Str)) : Nat :=
  if p.ran.isSome then 2 * (left - 1) else 2 * left

/-- A consumer has still to run the body that returns `NULL`. -/
def conBodies (k : Consumer) (p : Phase (Op Str) (Ret Str)) : Nat :=
  match p.ran with
  | some r => if Consumer.got r = .returned then 0 else 1
  | none => if k = .returned then 0 else 1

/-- What a producer does between its calls. -/
def prodOutside (left : Nat) (p : Phase (Op Str) (Ret Str)) : Nat :=
  if p.op = none then if left = 0 then 0 else 7 else if p.ran.isSome then 7 else 0

/-- What a consumer does between its calls. -/
def conOutside (k : Consumer) (p : Phase (Op Str) (Ret Str)) : Nat :=
  if p.op = none then
    match k with
    | .calling => 7
    | .printing _ => 8
    | .returned => 0
  else if p.ran.isSome then 8 else 0

/-- The bodies thread `t` has still to run. -/
def Run.bodies (s : Run cfg) : Thread cfg → Nat
  | .inl p => prodBodies (cfg.nstrs - s.sent p) (s.mon.phase (.inl p))
  | .inr c => conBodies (s.con c) (s.mon.phase (.inr c))

/-- What thread `t` does between its calls. -/
def Run.outside (s : Run cfg) : Thread cfg → Nat
  | .inl p => prodOutside (cfg.nstrs - s.sent p) (s.mon.phase (.inl p))
  | .inr c => conOutside (s.con c) (s.mon.phase (.inr c))

theorem outside_le (s : Run cfg) (t : Thread cfg) : s.outside t ≤ 8 := by
  cases t with
  | inl p =>
    simp only [Run.outside, prodOutside]
    split_ifs <;> omega
  | inr c =>
    simp only [Run.outside, conOutside]
    split_ifs
    · split <;> omega
    · omega
    · omega

/-- The steps main has still to make, with what a write of the flag and a broadcast may cost. -/
def mainRank (cfg : Config) : Main → Nat
  | .create i => (nthreads cfg - i) + cfg.nprods + nthreads cfg + 2 * bodyWeight cfg + 5
  | .joinProds i => (cfg.nprods - i) + nthreads cfg + 2 * bodyWeight cfg + 4
  | .shutdown => nthreads cfg + 2 * bodyWeight cfg + 3
  | .broadcast => nthreads cfg + bodyWeight cfg + 2
  | .joinCons i => (nthreads cfg - i) + 1
  | .returned => 0

/-- **The rank of a state.** -/
def Run.rank (s : Run cfg) : Nat :=
  bodyWeight cfg * (∑ t, s.bodies t + stored s.mon.shared) + ∑ t, s.outside t +
    ranks (code cfg.build) s.mon + mainRank cfg s.main

/-- Until the next body, what is left is less than the weight of one. -/
theorem outside_ranks_lt (s : Run cfg) :
    ∑ t, s.outside t + ranks (code cfg.build) s.mon < bodyWeight cfg := by
  have h1 : ∑ t, s.outside t ≤ 8 * nthreads cfg := by
    refine (Finset.sum_le_card_nsmul _ _ 8 fun t _ => outside_le s t).trans_eq ?_
    rw [← card_thread]
    exact Nat.mul_comm _ _
  have h2 := ranks_le (code cfg.build) s.mon
  rw [card_thread] at h2
  unfold bodyWeight
  omega

/-! ## A step of one thread -/

/-- **A step of one thread** that leaves the shared value. -/
theorem rank_lt_of_goto {t : Thread cfg} {p : Phase (Op Str) (Ret Str)}
    (hmon : s'.mon = s.mon.goto t p) (hmain : s'.main = s.main)
    (hb : ∀ u, s'.bodies u = s.bodies u) (ho : ∀ u, u ≠ t → s'.outside u = s.outside u)
    (hlt : s'.outside t + p.rank (code cfg.build) s.mon.shared <
      s.outside t + (s.mon.phase t).rank (code cfg.build) s.mon.shared) : s'.rank < s.rank := by
  have h1 := ranks_goto (code cfg.build) s.mon t p
  have h2 := sum_change ho
  have h3 : ∑ u, s'.bodies u = ∑ u, s.bodies u := Finset.sum_congr rfl fun u _ => hb u
  unfold Run.rank
  rw [h3, hmain, hmon, goto_shared]
  omega

/-- Phases of the same calls, with the same results, leave the threads' weights. -/
theorem weights_of_phases (s s' : Run cfg) (hsent : s'.sent = s.sent) (hcon : s'.con = s.con)
    (hop : ∀ t, (s'.mon.phase t).op = (s.mon.phase t).op)
    (hran : ∀ t, (s'.mon.phase t).ran = (s.mon.phase t).ran) (t : Thread cfg) :
    s'.bodies t = s.bodies t ∧ s'.outside t = s.outside t := by
  cases t with
  | inl p =>
    simp only [Run.bodies, Run.outside, prodBodies, prodOutside, hop, hran, hsent, and_self]
  | inr c =>
    simp only [Run.bodies, Run.outside, conBodies, conOutside, hop, hran, hcon, and_self]

/-! ## Who is woken up -/

/-- Nobody is about to start over, and whoever is woken by a thread about to wait can go on. -/
structure Settles (s : Run cfg) : Prop where
  spin : ∀ t o, s.mon.phase t ≠ .retry o
  passOn : ∀ t o c d, s.mon.phase t = .passOn o →
    (code (α := Str) cfg.build o).retry = .wait (some c) d →
      ∀ u o', s.mon.phase u = .blocked o' → (code (α := Str) cfg.build o').retry.on = some c →
        (code cfg.build o').waits s.mon.shared = false

/-- A full buffer is not empty. -/
theorem remove_goes {b : Build} {sp : Spool Str} (hfull : spoolFull sp = true)
    (hsize : 1 ≤ sp.size) : (code b .remove).waits sp = false := by
  by_contra hw
  have hempty := code_remove_waits_empty (by simpa using hw)
  have hcap := spoolFull_iff.mp hfull
  simp only [spoolEmpty, hcap, beq_iff_eq] at hempty
  omega

/-- An empty buffer is not full. -/
theorem insert_goes {b : Build} {sp : Spool Str} (hempty : spoolEmpty sp = true)
    (hsize : 1 ≤ sp.size) (item : Str) : (code b (.insert item)).waits sp = false := by
  rw [code_insert_waits]
  by_contra hw
  have hcap := spoolFull_iff.mp (by simpa using hw)
  simp only [spoolEmpty, hcap, beq_iff_eq] at hempty
  omega

theorem code4_spin (o : Op Str) : (code .part4 o).retry ≠ .spin := by
  cases o <;> simp [code, spoolInsert, spoolInsertCv2, spoolRemove, spoolRemoveCv2]

/-- With two condition variables a thread about to wait wakes up a thread of the other kind. -/
theorem settles_of_part4 (hb : cfg.build = .part4) (hr : (program cfg mem).Reachable s) :
    Settles s := by
  refine ⟨fun t => not_retry (fun o => by rw [hb]; exact code4_spin o) (reachable_mon hr) t, ?_⟩
  intro t o c d hp hretry u o' _ ho'
  have hh := (spooler_outline cfg.build cfg.bufsize mem).holds (reachable_mon hr)
  have hstop := hh.stop t o (Or.inl hp)
  have hsize : 1 ≤ s.mon.shared.size := hh.data.size ▸ cfg.bufsize_pos
  rw [hb] at hretry ho'
  cases o with
  | insert item =>
    obtain ⟨rfl, -⟩ : Cv.conCv = c ∧ Cv.proCv = d := by
      simpa [code, spoolInsert, spoolInsertCv2] using hretry
    cases o' with
    | insert item' => exact absurd ho' (by simp [code, spoolInsert, spoolInsertCv2, Retry.on])
    | remove => exact remove_goes hstop hsize
  | remove =>
    obtain ⟨rfl, -⟩ : Cv.proCv = c ∧ Cv.conCv = d := by
      simpa [code, spoolRemove, spoolRemoveCv2] using hretry
    cases o' with
    | insert item' => exact insert_goes hstop hsize item'
    | remove => exact absurd ho' (by simp [code, spoolRemove, spoolRemoveCv2, Retry.on])

/-- The phase of `t` changes and nothing else that the weights read. -/
theorem bodies_change {s' : Run cfg} {t : Thread cfg}
    (hphase : ∀ u, u ≠ t → s'.mon.phase u = s.mon.phase u) (hsent : s'.sent = s.sent)
    (hcon : s'.con = s.con) : ∑ u, s'.bodies u + s.bodies t = ∑ u, s.bodies u + s'.bodies t := by
  refine sum_change fun u hu => ?_
  cases u with
  | inl p => simp only [Run.bodies, hphase _ hu, hsent]
  | inr c => simp only [Run.bodies, hphase _ hu, hcon]

theorem ran_after (b : Build) (o : Op Str) (r : Ret Str) : ((code b o).after o r).ran = some r := by
  unfold Proc.after
  split <;> rfl

/-- **A body** lowers the bodies left and the items stored, taken together. -/
theorem bodies_of_body (hr : (program cfg mem).Reachable s) {t : Thread cfg} {o : Op Str}
    (hp : s.mon.phase t = .body o) (hsent : s'.sent = s.sent) (hcon : s'.con = s.con)
    (hshared : s'.mon.shared = ((code cfg.build o).body s.mon.shared).2)
    (hphase : s'.mon.phase = Function.update s.mon.phase t
      ((code cfg.build o).after o ((code cfg.build o).body s.mon.shared).1)) :
    ∑ u, s'.bodies u + stored s'.mon.shared < ∑ u, s.bodies u + stored s.mon.shared := by
  have hh := (spooler_outline cfg.build cfg.bufsize mem).holds (reachable_mon hr)
  have hgo := hh.go t o hp
  have hsum : ∑ u, s'.bodies u + s.bodies t = ∑ u, s.bodies u + s'.bodies t :=
    bodies_change (fun u hu => by rw [hphase, Function.update_of_ne hu]) hsent hcon
  have hself : (s'.mon.phase t).ran = some ((code cfg.build o).body s.mon.shared).1 := by
    rw [hphase, Function.update_self, ran_after]
  rw [hshared]
  cases t with
  | inl p =>
    obtain ⟨rfl, hlt⟩ := (reachable_calls hr).producer p o (by rw [hp]; rfl)
    have hfull : spoolFull s.mon.shared = false := (code_insert_waits _ _ _).symm.trans hgo
    have hst := stored_spoolInsertUnchecked hh.data.ring hfull (some (prodString p (s.sent p)))
    have h1 : s.bodies (.inl p) = 2 * (cfg.nstrs - s.sent p) := by
      simp [Run.bodies, prodBodies, hp, Phase.ran]
    have h2 : s'.bodies (.inl p) = 2 * (cfg.nstrs - s.sent p - 1) := by
      simp [Run.bodies, prodBodies, hself, hsent]
    rw [code_insert_body]
    show _ + stored (spoolInsertUnchecked s.mon.shared _) < _
    omega
  | inr c =>
    obtain ⟨rfl, hcall⟩ := (reachable_calls hr).consumer c o (by rw [hp]; rfl)
    have h1 : s.bodies (.inr c) = 1 := by simp [Run.bodies, conBodies, hp, Phase.ran, hcall]
    rw [code_remove_body] at hself ⊢
    show _ + stored (spoolRemoveUnchecked s.mon.shared).2 < _
    cases he : spoolEmpty s.mon.shared with
    | true =>
      -- the removal that returns `NULL` is the consumer's last
      have h2 : s'.bodies (.inr c) = 0 := by
        simp [Run.bodies, conBodies, hself, removeBody, spoolRemoveUnchecked_of_empty he,
          Consumer.got]
      have hst : stored (spoolRemoveUnchecked s.mon.shared).2 = stored s.mon.shared := by
        rw [spoolRemoveUnchecked_of_empty he]
      omega
    | false =>
      obtain ⟨x, hx⟩ := hh.data.removeBody_item he
      have h2 : s'.bodies (.inr c) = 1 := by
        simp [Run.bodies, conBodies, hself, hx, Consumer.got]
      have hst := stored_spoolRemoveUnchecked hh.data.ring he
      omega

/-- **A move of the spooler** lowers the rank. -/
theorem rank_lt_of_move (hs : Settles s) (hr : (program cfg mem).Reachable s) {t : Thread cfg}
    (hm : Move (code cfg.build) s.mon t s'.mon) (hsent : s'.sent = s.sent)
    (hcon : s'.con = s.con) (hmain : s'.main = s.main) : s'.rank < s.rank := by
  unfold Run.rank
  rw [hmain]
  by_cases hbody : ∃ o, s.mon.phase t = .body o
  · -- one body less pays for all that can happen until the next
    obtain ⟨o, hp⟩ := hbody
    have hlt := bodies_of_body hr hp hsent hcon (by rw [hm.of_body hp]) (by rw [hm.of_body hp]; rfl)
    have hle := Nat.mul_le_mul_left (bodyWeight cfg) (Nat.succ_le_of_lt hlt)
    have hrest := outside_ranks_lt s'
    rw [Nat.mul_succ] at hle
    omega
  · have hnot : ∀ o, s.mon.phase t ≠ .body o := fun o ho => hbody ⟨o, ho⟩
    have hlt := hm.ranks_lt (hs.spin t) (hs.passOn t) hnot
    have hshared : s'.mon.shared = s.mon.shared := by
      rcases hm.data with ⟨h, -⟩ | ⟨o, ho, -⟩
      · exact h
      · exact absurd ho (hnot o)
    have h1 : ∑ u, s'.bodies u = ∑ u, s.bodies u := Finset.sum_congr rfl fun u _ =>
      (weights_of_phases s s' hsent hcon hm.op (hm.ran hnot) u).1
    have h2 : ∑ u, s'.outside u = ∑ u, s.outside u := Finset.sum_congr rfl fun u _ =>
      (weights_of_phases s s' hsent hcon hm.op (hm.ran hnot) u).2
    rw [h1, h2, hshared]
    omega

/-! ## Every step lowers the rank -/

/-- A step of a producer outside the spooler. -/
theorem rank_lt_of_producer {p : Fin cfg.nprods} {q : Phase (Op Str) (Ret Str)}
    (hmon : s'.mon = s.mon.goto (.inl p) q) (hmain : s'.main = s.main) (hcon : s'.con = s.con)
    (hsent : ∀ p', p' ≠ p → s'.sent p' = s.sent p')
    (hb : prodBodies (cfg.nstrs - s'.sent p) q = s.bodies (.inl p))
    (hlt : prodOutside (cfg.nstrs - s'.sent p) q + q.rank (code cfg.build) s.mon.shared <
      s.outside (.inl p) + (s.mon.phase (.inl p)).rank (code cfg.build) s.mon.shared) :
    s'.rank < s.rank := by
  have hself : s'.mon.phase (.inl p) = q := by rw [hmon, goto_phase_self]
  have hother : ∀ u, u ≠ .inl p → s'.bodies u = s.bodies u ∧ s'.outside u = s.outside u :=
    fun u hu => by
      have hphase : s'.mon.phase u = s.mon.phase u := by rw [hmon, goto_phase_of_ne _ _ hu]
      cases u with
      | inl p' =>
        have hp' := hsent p' fun he => hu (he ▸ rfl)
        simp only [Run.bodies, Run.outside, hphase, hp', and_self]
      | inr c => simp only [Run.bodies, Run.outside, hphase, hcon, and_self]
  refine rank_lt_of_goto hmon hmain (fun u => ?_) (fun u hu => (hother u hu).2) ?_
  · by_cases hu : u = .inl p
    · subst hu
      rw [← hb]
      simp only [Run.bodies, hself]
    · exact (hother u hu).1
  · simpa only [Run.outside, hself] using hlt

/-- A step of a consumer outside the spooler. -/
theorem rank_lt_of_consumer {c : Fin cfg.ncons} {q : Phase (Op Str) (Ret Str)}
    (hmon : s'.mon = s.mon.goto (.inr c) q) (hmain : s'.main = s.main) (hsent : s'.sent = s.sent)
    (hcon : ∀ c', c' ≠ c → s'.con c' = s.con c')
    (hb : conBodies (s'.con c) q = s.bodies (.inr c))
    (hlt : conOutside (s'.con c) q + q.rank (code cfg.build) s.mon.shared <
      s.outside (.inr c) + (s.mon.phase (.inr c)).rank (code cfg.build) s.mon.shared) :
    s'.rank < s.rank := by
  have hself : s'.mon.phase (.inr c) = q := by rw [hmon, goto_phase_self]
  have hother : ∀ u, u ≠ .inr c → s'.bodies u = s.bodies u ∧ s'.outside u = s.outside u :=
    fun u hu => by
      have hphase : s'.mon.phase u = s.mon.phase u := by rw [hmon, goto_phase_of_ne _ _ hu]
      cases u with
      | inl p => simp only [Run.bodies, Run.outside, hphase, hsent, and_self]
      | inr c' =>
        have hc' := hcon c' fun he => hu (he ▸ rfl)
        simp only [Run.bodies, Run.outside, hphase, hc', and_self]
  refine rank_lt_of_goto hmon hmain (fun u => ?_) (fun u hu => (hother u hu).2) ?_
  · by_cases hu : u = .inr c
    · subst hu
      rw [← hb]
      simp only [Run.bodies, hself]
    · exact (hother u hu).1
  · simpa only [Run.outside, hself] using hlt

theorem rank_lock_le (b : Build) (sp : Spool Str) (o : Op Str) :
    (Phase.lock (ρ := Ret Str) o).rank (code b) sp ≤ 6 := by
  simp only [Phase.rank]
  split_ifs <;> omega

/-- **A step of a worker thread** lowers the rank. -/
theorem rank_lt_of_workerStep (hs : Settles s) (hr : (program cfg mem).Reachable s)
    {t : Thread cfg} {w : Option (Thread cfg)} (h : workerStep s t w = some s') :
    s'.rank < s.rank := by
  unfold workerStep at h
  split at h
  · rename_i hp
    split_ifs at h
    cases t with
    | inl p =>
      simp only at h
      split_ifs at h with hn
      obtain rfl := Option.some.inj h
      have := rank_lock_le cfg.build s.mon.shared (.insert (prodString p (s.sent p)))
      refine rank_lt_of_producer rfl rfl rfl (fun _ _ => rfl) ?_ ?_
      · simp [Run.bodies, hp, prodBodies, Phase.ran]
      · simp only [Run.outside, hp, prodOutside, Phase.op, Phase.ran, if_neg (show
          cfg.nstrs - s.sent p ≠ 0 by omega)]
        simp only [reduceCtorEq, if_false, if_true, Option.isSome_none, Bool.false_eq_true,
          Phase.rank] at this ⊢
        omega
    | inr c =>
      simp only at h
      split at h
      · rename_i hc
        obtain rfl := Option.some.inj h
        have := rank_lock_le cfg.build s.mon.shared .remove
        refine rank_lt_of_consumer rfl rfl rfl (fun _ _ => rfl) ?_ ?_
        · simp [Run.bodies, hp, conBodies, Phase.ran, hc]
        · simp only [Run.outside, hp, conOutside, Phase.op, Phase.ran, hc]
          simp only [reduceCtorEq, if_false, if_true, Option.isSome_none, Bool.false_eq_true,
            Phase.rank] at this ⊢
          omega
      · rename_i str hc
        obtain rfl := Option.some.inj h
        refine rank_lt_of_consumer (goto_eq_self hp).symm rfl rfl
          (fun c' hc' => Function.update_of_ne hc' ..) ?_ ?_
        · simp [Run.bodies, hp, conBodies, Phase.ran, hc]
        · simp [Run.outside, hp, conOutside, Phase.op, hc]
      · exact absurd h (by simp)
  · rename_i o r hp
    cases t with
    | inl p =>
      obtain rfl := Option.some.inj h
      refine rank_lt_of_producer rfl rfl rfl (fun p' hp' => Function.update_of_ne hp' ..) ?_ ?_
      · simp only [Run.bodies, hp, prodBodies, Phase.ran, Function.update_self]
        simp
        omega
      · simp only [Run.outside, hp, prodOutside, Phase.op, Phase.ran, Function.update_self]
        simp [Phase.rank]
        split_ifs <;> omega
    | inr c =>
      obtain rfl := Option.some.inj h
      refine rank_lt_of_consumer rfl rfl rfl (fun c' hc' => Function.update_of_ne hc' ..) ?_ ?_
      · simp [Run.bodies, hp, conBodies, Phase.ran]
      · simp only [Run.outside, hp, conOutside, Phase.op, Phase.ran, Function.update_self]
        simp [Phase.rank]
        split <;> omega
  · obtain ⟨m, hm, rfl⟩ := Option.map_eq_some_iff.mp h
    exact rank_lt_of_move hs hr ((step_iff _).mp ⟨w, hm⟩) rfl rfl rfl

/-- The flag and the phases change, and main's rank pays for it. -/
theorem rank_lt_of_main (hb : ∀ u, s'.bodies u = s.bodies u)
    (hst : stored s'.mon.shared = stored s.mon.shared)
    (hm : mainRank cfg s'.main + bodyWeight cfg ≤ mainRank cfg s.main) : s'.rank < s.rank := by
  have h1 : ∑ u, s'.bodies u = ∑ u, s.bodies u := Finset.sum_congr rfl fun u _ => hb u
  have h2 := outside_ranks_lt s'
  unfold Run.rank
  rw [h1, hst]
  omega

/-- **A step of main** lowers the rank. -/
theorem rank_lt_of_mainStep (h : mainStep s = some s') : s'.rank < s.rank := by
  have hlower : ∀ m, mainRank cfg m < mainRank cfg s.main → ({ s with main := m } : Run cfg).rank <
      s.rank := fun m hm => by
    unfold Run.rank
    exact Nat.add_lt_add_left hm _
  unfold mainStep at h
  split at h
  · rename_i i hm
    split_ifs at h <;> obtain rfl := Option.some.inj h <;> refine hlower _ ?_ <;> rw [hm] <;>
      simp only [mainRank, nthreads] <;> omega
  · rename_i i hm
    split_ifs at h <;> obtain rfl := Option.some.inj h <;> refine hlower _ ?_ <;> rw [hm] <;>
      simp only [mainRank, nthreads] <;> omega
  · rename_i hm
    split_ifs at h <;> obtain rfl := Option.some.inj h
    · refine hlower _ ?_
      rw [hm]
      simp only [mainRank, nthreads]
      omega
    · refine rank_lt_of_main (fun u => by cases u <;> rfl) rfl ?_
      rw [hm]
      simp only [mainRank, nthreads]
      omega
  · rename_i hm
    obtain rfl := Option.some.inj h
    refine rank_lt_of_main (fun u => ?_) rfl ?_
    · exact (weights_of_phases s { s with
        mon := s.mon.wakeAll (code cfg.build) .conCv
        main := .joinCons cfg.nprods } rfl rfl (fun t => (wakeAll_op _ _ t).1)
        (wakeAll_ran _ _) u).1
    · rw [hm]
      simp only [mainRank, nthreads]
      omega
  · rename_i i hm
    split_ifs at h <;> obtain rfl := Option.some.inj h <;> refine hlower _ ?_ <;> rw [hm] <;>
      simp only [mainRank, nthreads] <;> omega
  · exact absurd h (by simp)

/-! ## How long a run is -/

/-- A spurious wake-up. -/
def Action.isSpurious : Action cfg → Bool
  | .spurious _ => true
  | _ => false

/-- **A step** lowers the rank, and a spurious wake-up raises it by 6 at most. -/
theorem rank_of_step (hs : Settles s) (hr : (program cfg mem).Reachable s)
    {a : Action cfg} (h : step s a = some s') :
    s'.rank + 1 ≤ s.rank + if a.isSpurious = true then 7 else 0 := by
  cases a with
  | worker t w => exact rank_lt_of_workerStep hs hr h
  | main => exact rank_lt_of_mainStep h
  | spurious t =>
    simp only [step] at h
    split at h
    · rename_i o hp
      obtain rfl := Option.some.inj h
      have hw := weights_of_phases s { s with mon := s.mon.goto t (.woken o) } rfl rfl
        (phase_goto (f := Phase.op) (by rw [hp]; rfl))
        (phase_goto (f := Phase.ran) (by rw [hp]; rfl))
      have h1 : ∑ u, ({ s with mon := s.mon.goto t (.woken o) } : Run cfg).bodies u =
          ∑ u, s.bodies u := Finset.sum_congr rfl fun u _ => (hw u).1
      have h2 : ∑ u, ({ s with mon := s.mon.goto t (.woken o) } : Run cfg).outside u =
          ∑ u, s.outside u := Finset.sum_congr rfl fun u _ => (hw u).2
      have h3 := ranks_woken_le (code cfg.build) s.mon t o
      unfold Run.rank
      rw [h1, h2, goto_shared]
      simp only [Action.isSpurious, if_true]
      omega
    · exact absurd h (by simp)

/-- The length of a run against what its steps leave of the rank. -/
theorem length_add_rank_le (hb : cfg.build = .part4) {as : List (Action cfg)} :
    ∀ {s s' : Run cfg}, (program cfg mem).Reachable s → runFrom (AnyStep cfg) s as = some s' →
      as.length + s'.rank ≤ s.rank + 7 * as.countP Action.isSpurious := by
  induction as with
  | nil =>
    intro s s' _ h
    obtain rfl := Option.some.inj h
    simp
  | cons a as ih =>
    intro s s' hr h
    obtain ⟨s₁, h1, h2⟩ := Option.bind_eq_some_iff.mp h
    rw [if_pos trivial] at h2
    have hstep := rank_of_step (settles_of_part4 hb hr) hr h1
    have hrest := ih (hr.step ⟨a, h1⟩) h2
    rw [List.countP_cons, List.length_cons]
    split_ifs at hstep ⊢ <;> omega

/-- The most steps that a run without spurious wake-ups can have. -/
def maxSteps (cfg : Config) : Nat :=
  bodyWeight cfg * (2 * (cfg.nprods * cfg.nstrs) + cfg.ncons + 3) + 2 * nthreads cfg +
    cfg.nprods + 5

/-- The bodies of a whole run. -/
theorem sum_bodies_start (cfg : Config) (mem : Nat → Ptr Str) :
    ∑ t, (Run.start cfg mem).bodies t = 2 * (cfg.nprods * cfg.nstrs) + cfg.ncons := by
  rw [Fintype.sum_sum_type]
  simp only [Run.bodies, Run.start, State.start, prodBodies, conBodies, Phase.ran]
  simp [Nat.mul_left_comm]

theorem rank_start_le (cfg : Config) (mem : Nat → Ptr Str) :
    (Run.start cfg mem).rank ≤ maxSteps cfg := by
  have hlt := outside_ranks_lt (Run.start cfg mem)
  have hstored : stored (Run.start cfg mem).mon.shared = 0 := Nat.sub_self _
  have hmain : (Run.start cfg mem).main = .create 0 := rfl
  unfold Run.rank maxSteps
  rw [sum_bodies_start, hstored, hmain, Nat.mul_add _ _ 3, Nat.add_zero]
  simp only [mainRank]
  omega

/-- **No run is endless**: with two condition variables a run is at most as long as `maxSteps`,
plus seven steps for each spurious wake-up. -/
theorem spooler2_steps_le (hb : cfg.build = .part4) {as : List (Action cfg)}
    (h : runFrom (AnyStep cfg) (.start cfg mem) as = some s) :
    as.length ≤ maxSteps cfg + 7 * as.countP Action.isSpurious := by
  have h0 : (program cfg mem).Reachable (.start cfg mem) := .start rfl
  have h1 := length_add_rank_le hb h0 h
  have h2 := rank_start_le cfg mem
  omega

/-- A whole run of one producer and one consumer, who waits before main sets the flag. -/
def wholeRun : List (Action (onePair .part4)) :=
  mainSteps 3 ++ steps 7 (.inl (theProducer .part4)) ++ steps 13 (.inr (theConsumer .part4)) ++
    mainSteps 4 ++ steps 6 (.inr (theConsumer .part4)) ++ mainSteps 2

/-- The whole run, within its bound. -/
theorem spooler2_steps_le_onePair :
    ∃ s, runFrom (AnyStep _) (.start (onePair .part4) fun _ => none) wholeRun = some s ∧
      s.main = .returned ∧
      wholeRun.length ≤ maxSteps (onePair .part4) + 7 * wholeRun.countP Action.isSpurious := by
  have h : (runFrom (AnyStep _) (.start (onePair .part4) fun _ => none) wholeRun).any
      (fun s => s.main = .returned) = true := by decide
  cases hs : runFrom (AnyStep _) (.start (onePair .part4) fun _ => none) wholeRun with
  | none => rw [hs] at h; exact absurd h (by simp)
  | some s =>
    rw [hs] at h
    exact ⟨s, rfl, of_decide_eq_true h, spooler2_steps_le rfl hs⟩

/-! ## How a run ends -/

/-- Before main calls `spool_shutdown_efficient` it can only be held up by a producer. -/
theorem joinProds_of_stuck (hs : ¬ CanStep s) (hm : s.main.shutdownCalled = false) :
    ∃ i, s.main = .joinProds i := by
  cases hmain : s.main with
  | joinProds i => exact ⟨i, rfl⟩
  | create i =>
    refine absurd (canStep_of_mainStep ?_) hs
    unfold mainStep
    rw [hmain]
    simp only
    split_ifs <;> rfl
  | shutdown =>
    refine absurd (canStep_of_mainStep ?_) hs
    unfold mainStep
    rw [hmain]
    simp only
    split_ifs <;> rfl
  | _ => rw [hmain] at hm; exact absurd hm (by simp [Main.shutdownCalled])

/-- **No deadlock with two condition variables**: what is stuck is stuck after shutdown. -/
theorem shutdownCalled_of_stuck (hb : cfg.build = .part4) (hc : 1 ≤ cfg.ncons)
    (hr : (program cfg mem).Reachable s) (hs : ¬ CanStep s) : s.main.shutdownCalled = true := by
  by_contra hm
  have hm : s.main.shutdownCalled = false := by simpa using hm
  obtain ⟨i, hmain⟩ := joinProds_of_stuck hs hm
  have hcreated : ∀ t, s.main.created (tid cfg t) = true := fun t => by rw [hmain]; rfl
  -- no consumer has got `NULL`, so all consumers are blocked
  have hcon : ∀ c : Fin cfg.ncons, s.mon.phase (.inr c) = .blocked .remove := fun c => by
    rcases stuck_thread hr hs (hcreated (.inr c)) with ⟨o, ho⟩ | ht
    · obtain rfl := ((reachable_calls hr).consumer c o (by rw [ho]; rfl)).1
      exact ho
    · have hflag := shutdown_of_returned hr (c := c) (by simpa [Run.terminated] using ht)
      rw [(reachable_order hr).flag, hm] at hflag
      exact absurd hflag (by simp)
  have hidle : ∀ p : Fin cfg.nprods, (∃ o, s.mon.phase (.inl p) = .blocked o) ∨
      s.terminated (.inl p) = true := fun p => stuck_thread hr hs (hcreated (.inl p))
  have hawake : ∀ t, (s.mon.phase t).awake = false := fun t => by
    cases t with
    | inl p =>
      rcases hidle p with ⟨o, ho⟩ | ht
      · rw [ho]; rfl
      · rw [op_eq_none_iff.mp (terminated_inl.mp ht).1]; rfl
    | inr c => rw [hcon c]; rfl
  have hmon := reachable_mon hr
  have hfree := free_of_nobody_awake (reachable_wf hmon).mutex hawake
  have hnone : ∀ q : Phase (Op Str) (Ret Str) → Bool, (∀ p, p.awake = false → q p = false) →
      count q s.mon.phase = 0 := fun q hq => count_eq_zero_iff.mpr fun t => hq _ (hawake t)
  refine hs (canStep_of_joined hmain fun p => ?_)
  rcases hidle p with ⟨o, ho⟩ | ht
  swap
  · exact ht
  -- a blocked consumer and a blocked producer: no items and no free slots
  obtain rfl := ((reachable_calls hr).producer p o (by rw [ho]; rfl)).1
  have h1 := items_le_awake (hb ▸ hmon) hfree (hcon ⟨0, hc⟩)
  have h2 := slots_le_awake (hb ▸ hmon) hfree ho
  rw [hnone consumerAwake fun p hp => by
    cases p <;> first | rfl | exact absurd hp (by simp [Phase.awake])] at h1
  rw [hnone producerAwake fun p hp => by
    cases p <;> first | rfl | exact absurd hp (by simp [Phase.awake])] at h2
  have hsize := ((spooler_outline cfg.build cfg.bufsize mem).holds hmon).data.size
  have hpos := cfg.bufsize_pos
  unfold stored at h1
  omega

/-- After careful shutdowns all consumers have returned in a stuck state. -/
theorem returned_of_stuck (hb : cfg.build = .part4)
    (h : ((program cfg mem).restrict (Careful cfg)).Reachable s)
    (hret : s.main.shutdownReturned = true) (hs : ¬ CanStep s) (c : Fin cfg.ncons) :
    s.con c = .returned := by
  have hwoken : AllWoken s := by
    refine System.invariant (I := AllWoken) (fun s hi => ?_) (fun s s' hr hi hn => ?_) h
    · obtain rfl : s = .start cfg mem := hi
      exact fun _ _ => rfl
    · obtain ⟨⟨a, ha⟩, hcare⟩ := hn
      exact next_allWoken (by simp [hb]) hr.of_restrict hi (next_of_step ha)
        (hcare.resolve_left fun h3 => absurd (hb.symm.trans h3.1) (by simp))
  rcases stuck_consumer h.of_restrict hret hs c with ⟨o, ho⟩ | hc
  · have := hwoken hret c
    rw [ho] at this
    exact absurd this (by simp [Phase.waiting])
  · exact hc

/-- **The program completes**: a run with careful shutdowns in which nothing but a spurious
wake-up can happen has returned from `run_threads`, and its consumers have printed every string of
every producer once. -/
theorem spooler2_completes (hb : cfg.build = .part4) (hc : 1 ≤ cfg.ncons)
    (h : ((program cfg mem).restrict (Careful cfg)).Reachable s) (hs : ¬ CanStep s) :
    s.main = .returned ∧ (s.stdout.map Prod.snd).Perm (prodStrings cfg) := by
  have hr := h.of_restrict
  have hcalled := shutdownCalled_of_stuck hb hc hr hs
  have hreturned : s.main.shutdownReturned = true := by
    cases hmain : s.main with
    | broadcast =>
      refine absurd (canStep_of_mainStep ?_) hs
      unfold mainStep
      rw [hmain]
      rfl
    | joinCons | returned => rfl
    | _ => rw [hmain] at hcalled; exact absurd hcalled (by simp [Main.shutdownCalled])
  have hcon := returned_of_stuck hb h hreturned hs
  refine ⟨?_, printed_perm hc hr hcon⟩
  cases hmain : s.main with
  | returned => rfl
  | joinCons i =>
    -- main joins producers and consumers that have all terminated
    have hall : ∀ t, s.terminated t = true := fun t => by
      cases t with
      | inl p =>
        exact (reachable_order hr).joined p (by rw [hmain]; rfl)
      | inr c => simpa [Run.terminated] using hcon c
    refine absurd (canStep_of_mainStep ?_) hs
    unfold mainStep
    rw [hmain]
    simp only [hall, implies_true, if_true]
    split_ifs <;> rfl
  | _ => rw [hmain] at hreturned; exact absurd hreturned (by simp [Main.shutdownReturned])

/-- The whole run has printed the one string. -/
theorem spooler2_completes_onePair :
    ∃ s : Run (onePair .part4), (program (onePair .part4) fun _ => none).Reachable s ∧
      s.main = .returned ∧ (s.stdout.map Prod.snd).Perm (prodStrings (onePair .part4)) := by
  obtain ⟨s, hr, hs⟩ := reachable_of_any (fun _ => none) (Careful (onePair .part4)) wholeRun
    (p := fun s => (mainStep s).isNone = true ∧ ∀ t w, (workerStep s t w).isNone = true)
    (by decide)
  exact ⟨s, hr.of_restrict,
    spooler2_completes rfl (le_refl 1) hr (not_canStep_iff.mpr (of_decide_eq_true hs))⟩

end SystemProgramming.Spooler
