import Mathlib.Order.WellFounded
import SystemProgramming.Spooler.Livelock

/-!
# When a run of the spooler is endless

A thread that spins, or two threads of one kind that wake each other up, can go on for ever if
nobody changes what they wait for. With one condition variable the second thread takes the signal
that the first gives before it waits, and waits again. The two condition variables of
`spooler_two_cv.c` send that signal to the other kind.

* `spooler_endless_iff`: for each build, the numbers of threads, strings and slots for which there
  is an endless run without spurious wake-ups.
-/

namespace SystemProgramming.Spooler

open Lib Lib.Monitor

variable {cfg : Config} {mem : Nat → Ptr Str} {s s' : Run cfg}

/-! ## Endless runs -/

/-- A step that is not a spurious wake-up. -/
def Works (s s' : Run cfg) : Prop := ∃ a, Action.isSpurious a = false ∧ step s a = some s'

/-- There is a run from `s` that never ends, and no spurious wake-up helps it. -/
def Endless (s : Run cfg) : Prop :=
  ∃ run : Nat → Run cfg, run 0 = s ∧ ∀ n, Works (run n) (run (n + 1))

theorem endless_iff : Endless s ↔ ¬ Acc (fun s' s => Works s s') s :=
  (not_acc_iff_exists_descending_chain (r := fun s' s => Works s s')).symm

theorem Leads.endless (h : Leads s s') (he : Endless s') : Endless s := by
  rw [endless_iff] at he ⊢
  induction h using Relation.ReflTransGen.head_induction_on with
  | refl => exact he
  | head hs _ ih => exact fun hacc => ih (hacc.inv hs)

/-- What can be had again after a step can be had for ever. -/
theorem endless_of_again {I : Run cfg → Prop}
    (hI : ∀ s, I s → ∃ s₁ s', Works s s₁ ∧ Leads s₁ s' ∧ I s') (hs : I s) : Endless s := by
  rw [endless_iff]
  intro hacc
  suffices hnone : ¬ ∃ s', Leads s s' ∧ I s' from hnone ⟨s, .refl, hs⟩
  clear hs
  induction hacc with
  | intro s _ ih =>
    rintro ⟨s', hleads, hs'⟩
    rcases Relation.ReflTransGen.cases_head hleads with rfl | ⟨s₁, hw, hrest⟩
    · obtain ⟨s₁, s₂, hw, hrest, hs₂⟩ := hI _ hs'
      exact ih s₁ hw ⟨s₂, hrest, hs₂⟩
    · exact ih s₁ hw ⟨s', hrest, hs'⟩

theorem works_of_move {t : Thread cfg} {m : State (Thread cfg) (Op Str) (Spool Str) (Ret Str)}
    (hm : Move (code cfg.build) s.mon t m) : Works s { s with mon := m } := by
  obtain ⟨w, hw⟩ := workerStep_of_move hm
  exact ⟨.worker t w, rfl, hw⟩

/-- A thread that spins on a condition that nobody changes. -/
theorem endless_of_spin (hb : cfg.build = .part2) {t : Thread cfg} {o : Op Str}
    (hp : s.mon.phase t = .lock o) (hf : s.mon.owner = none)
    (hw : (code cfg.build o).waits s.mon.shared = true) : Endless s := by
  have hr : (code (α := Str) cfg.build o).retry = .spin := by
    rw [hb]
    cases o <;> rfl
  refine endless_of_again (I := fun s => s.mon.phase t = .lock o ∧ s.mon.owner = none ∧
    (code cfg.build o).waits s.mon.shared = true) (fun s hs => ?_) ⟨hp, hf, hw⟩
  obtain ⟨hp, hf, hw⟩ := hs
  obtain ⟨m₁, m, h1, h2, hfree, hshared, hlock⟩ := exists_spin hp hf hw hr
  exact ⟨{ s with mon := m₁ }, { s with mon := m }, works_of_move h1, leads_of_moves h2 rfl, hlock,
    hfree, hshared ▸ hw⟩

/-- Two threads that wake each other up, of which neither can go on. -/
theorem endless_of_exchange (hb : cfg.build = .part3) {t u : Thread cfg} {o o' : Op Str}
    (htu : u ≠ t) (hp : s.mon.phase t = .lock o) (hu : s.mon.phase u = .blocked o')
    (hf : s.mon.owner = none) (hw : (code cfg.build o).waits s.mon.shared = true)
    (hw' : (code cfg.build o').waits s.mon.shared = true) : Endless s := by
  have hretry : ∀ o, (code (α := Str) cfg.build o).retry = .wait (some .conCv) .conCv := by
    rw [hb]
    exact code1_retry
  refine endless_of_again (I := fun s => ∃ t u o o', u ≠ t ∧
    (s.mon.phase t = .lock o ∨ s.mon.phase t = .woken o) ∧ s.mon.phase u = .blocked o' ∧
    s.mon.owner = none ∧ (code cfg.build o).waits s.mon.shared = true ∧
    (code cfg.build o').waits s.mon.shared = true) (fun s hs => ?_)
    ⟨t, u, o, o', htu, Or.inl hp, hu, hf, hw, hw'⟩
  obtain ⟨t, u, o, o', htu, hp, hu, hf, hw, hw'⟩ := hs
  have hon : (code (α := Str) cfg.build o').retry.on = some .conCv := by
    rw [hretry]
    rfl
  obtain ⟨m₁, m, h1, h2, hfree, hshared, hblocked, hwoken⟩ :=
    exists_exchange htu hp hu hf hw (hretry o) hon
  exact ⟨{ s with mon := m₁ }, { s with mon := m }, works_of_move h1, leads_of_moves h2 rfl,
    u, t, o', o, htu.symm, Or.inr hwoken, hblocked, hfree, hshared ▸ hw', hshared ▸ hw⟩

/-! ## Before anybody has to wait -/

/-- All threads are created, and nobody is in a call. -/
structure Calm (s : Run cfg) : Prop where
  idle : ∀ t, s.mon.phase t = .idle
  free : s.mon.owner = none
  main : s.main = .joinProds 0
  flag : s.mon.shared.shutdown = false
  con : ∀ c, s.con c = .calling

/-- Thread `t` calls `o` next. -/
def Calling (s : Run cfg) (t : Thread cfg) (o : Op Str) : Prop :=
  match t with
  | .inl p => s.sent p < cfg.nstrs ∧ o = .insert (prodString p (s.sent p))
  | .inr c => s.con c = .calling ∧ o = .remove

/-- Main creates all threads. -/
theorem leads_create {n : Nat} : ∀ {s : Run cfg} {i : Nat}, s.main = .create i →
    i + n = cfg.nprods + cfg.ncons → Leads s { s with main := .joinProds 0 } := by
  induction n with
  | zero =>
    intro s i hm hi
    refine .single ⟨.main, rfl, ?_⟩
    show mainStep s = _
    unfold mainStep
    rw [hm]
    simp only
    rw [if_neg (by omega)]
  | succ n ih =>
    intro s i hm hi
    have hstep : Works s { s with main := .create (i + 1) } := by
      refine ⟨.main, rfl, ?_⟩
      show mainStep s = _
      unfold mainStep
      rw [hm]
      simp only
      rw [if_pos (by omega)]
    exact .head hstep (ih (s := { s with main := .create (i + 1) }) rfl (by omega))

theorem exists_calm (cfg : Config) (mem : Nat → Ptr Str) : ∃ s, Leads (.start cfg mem) s ∧ Calm s ∧
    (∀ p, s.sent p = 0) ∧ s.mon.shared = spoolInitShared mem cfg.bufsize :=
  ⟨_, leads_create (i := 0) rfl (Nat.zero_add _), ⟨fun _ => rfl, rfl, rfl, rfl, fun _ => rfl⟩,
    fun _ => rfl, rfl⟩

theorem works_call {t : Thread cfg} {o : Op Str} (hm : s.main.created (tid cfg t) = true)
    (hp : s.mon.phase t = .idle) (hcall : Calling s t o) :
    Works s { s with mon := s.mon.goto t (.lock o) } := by
  refine ⟨.worker t none, rfl, ?_⟩
  show workerStep s t none = _
  unfold workerStep
  rw [hp]
  simp only
  rw [if_pos hm]
  cases t with
  | inl p =>
    obtain ⟨hlt, rfl⟩ := hcall
    simp only
    rw [if_pos hlt]
  | inr c =>
    obtain ⟨hc, rfl⟩ := hcall
    simp only [hc]

theorem Calm.created (h : Calm s) (i : Nat) : s.main.created i = true := by rw [h.main]; rfl

/-- A thread that has to wait spins. -/
theorem Calm.endless_of_spin (h : Calm s) (hb : cfg.build = .part2) {t : Thread cfg} {o : Op Str}
    (hcall : Calling s t o) (hw : (code cfg.build o).waits s.mon.shared = true) : Endless s :=
  Leads.endless (.single (works_call (h.created _) (h.idle t) hcall))
    (Spooler.endless_of_spin hb (goto_phase_self ..) h.free hw)

/-- Two threads that have to wait wake each other up. -/
theorem Calm.endless_of_exchange (h : Calm s) (hb : cfg.build = .part3) {t u : Thread cfg}
    {o o' : Op Str} (htu : u ≠ t) (hcall : Calling s t o) (hcall' : Calling s u o')
    (hw : (code cfg.build o).waits s.mon.shared = true)
    (hw' : (code cfg.build o').waits s.mon.shared = true) : Endless s := by
  have hr : (code (α := Str) cfg.build o').retry = .wait (some .conCv) .conCv := by
    rw [hb]
    exact code1_retry o'
  have h1 := works_call (h.created _) (h.idle u) hcall'
  obtain ⟨m, hmoves, hfree, hshared, hblocked, hother⟩ :=
    exists_blocked (goto_phase_self s.mon u (.lock o')) h.free hw' hr
  have h2 := leads_of_moves (s := { s with mon := s.mon.goto u (.lock o') }) hmoves rfl
  have hidle : m.phase t = .idle := by
    have hpt : (s.mon.goto u (.lock o')).phase t = .idle := by
      rw [goto_phase_of_ne _ _ htu.symm, h.idle t]
    rw [hother t htu.symm (by simp [hpt]), hpt]
  have hcall₂ : Calling { s with mon := m } t o := by cases t <;> exact hcall
  have h3 := works_call (s := { s with mon := m }) (h.created (tid cfg t)) hidle hcall₂
  have hblocked' : (m.goto t (.lock o)).phase u = .blocked o' := by
    rw [goto_phase_of_ne _ _ htu, hblocked]
  exact Leads.endless (.tail (.head h1 h2) h3) (Spooler.endless_of_exchange
    (s := { s with mon := m.goto t (.lock o) }) hb htu (goto_phase_self ..) hblocked' hfree
    (hshared ▸ hw) (hshared ▸ hw'))

/-! ## Filling the buffer -/

/-- A producer inserts its next string while nobody else is in a call. -/
theorem Calm.insert (h : Calm s) (hr : (program cfg mem).Reachable s) {p : Fin cfg.nprods}
    (hn : s.sent p < cfg.nstrs) (hfull : spoolFull s.mon.shared = false) :
    ∃ s', Leads s s' ∧ Calm s' ∧ s'.sent = Function.update s.sent p (s.sent p + 1) ∧
      s'.mon.shared.capacity = s.mon.shared.capacity - 1 := by
  have hring := ((spooler_outline cfg.build cfg.bufsize mem).holds (reachable_mon hr)).data.ring
  have h1 := works_call (t := .inl p) (h.created _) (h.idle _) ⟨hn, rfl⟩
  have hgoes := (code_insert_waits cfg.build (prodString p (s.sent p)) _).trans hfull
  obtain ⟨m, hmoves, hfree, hshared, hreturned, hother⟩ :=
    exists_returned (goto_phase_self s.mon (.inl p) _) h.free hgoes fun u o' hu => by
      rw [goto_phase] at hu
      split_ifs at hu
      exact absurd ((h.idle u).symm.trans hu) (by simp)
  have h2 := leads_of_moves (s := { s with mon := s.mon.goto (.inl p) _ }) hmoves rfl
  have h3 : Works { s with mon := m } { s with
      mon := m.goto (.inl p) .idle
      sent := Function.update s.sent p (s.sent p + 1) } := by
    refine ⟨.worker (.inl p) none, rfl, ?_⟩
    show workerStep _ _ _ = _
    unfold workerStep
    rw [hreturned]
  rw [code_insert_body] at hshared
  have hshared : m.shared = spoolInsertUnchecked s.mon.shared (some (prodString p (s.sent p))) :=
    hshared
  refine ⟨_, .tail (.head h1 h2) h3, ⟨fun t => ?_, hfree, h.main, ?_, h.con⟩, rfl, ?_⟩
  · show (m.goto (.inl p) .idle).phase t = .idle
    rw [goto_phase]
    split_ifs with ht
    · rfl
    · rw [hother t ht, goto_phase_of_ne _ _ ht, h.idle t]
  · show m.shared.shutdown = false
    rw [hshared, shutdown_spoolInsertUnchecked, h.flag]
  · show m.shared.capacity = _
    rw [hshared, spoolInsertUnchecked_of_room hring hfull]

/-- **The producers can fill the buffer**, and those in `K` still have a string each, if there are
enough strings. -/
theorem Calm.fill {K : Finset (Fin cfg.nprods)} {k : Nat} : ∀ {s : Run cfg}, Calm s →
    (program cfg mem).Reachable s → s.mon.shared.capacity = k →
    k + K.card ≤ ∑ p, (cfg.nstrs - s.sent p) → (∀ p ∈ K, s.sent p < cfg.nstrs) →
    ∃ s', Leads s s' ∧ Calm s' ∧ spoolFull s'.mon.shared = true ∧
      ∀ p ∈ K, s'.sent p < cfg.nstrs := by
  induction k with
  | zero => exact fun h _ hk _ hK => ⟨_, .refl, h, spoolFull_iff.mpr hk, hK⟩
  | succ k ih =>
    intro s h hr hk hle hK
    -- somebody has a string left that need not be kept
    obtain ⟨p, hp⟩ : ∃ p, (if p ∈ K then 1 else 0) < cfg.nstrs - s.sent p := by
      by_contra hno
      push Not at hno
      have hsum := Finset.sum_le_sum fun p (_ : p ∈ Finset.univ) => hno p
      rw [Finset.sum_ite_mem, Finset.univ_inter, Finset.sum_const, smul_eq_mul] at hsum
      omega
    have hfull : spoolFull s.mon.shared = false := by
      simp [spoolFull, hk]
    obtain ⟨s₁, h1, hcalm, hsent, hcap⟩ := h.insert hr (p := p) (by omega) hfull
    have hsum : ∑ q, (cfg.nstrs - s₁.sent q) + (cfg.nstrs - s.sent p) =
        ∑ q, (cfg.nstrs - s.sent q) + (cfg.nstrs - s₁.sent p) :=
      sum_change (f := fun q => cfg.nstrs - s.sent q) (g := fun q => cfg.nstrs - s₁.sent q)
        fun q hq => by rw [hsent, Function.update_of_ne hq]
    have hself : s₁.sent p = s.sent p + 1 := by rw [hsent, Function.update_self]
    obtain ⟨s', h2, hrest⟩ := ih hcalm (h1.reachable hr) (by omega) (by omega) fun q hq => by
      by_cases hqp : q = p
      · subst hqp
        rw [if_pos hq] at hp
        omega
      · rw [hsent, Function.update_of_ne hqp]
        exact hK q hq
    exact ⟨s', h1.trans h2, hrest⟩

/-- From the start the producers can fill the buffer. -/
theorem exists_full (mem : Nat → Ptr Str) {K : Finset (Fin cfg.nprods)}
    (hK : cfg.bufsize + K.card ≤ cfg.nprods * cfg.nstrs) :
    ∃ s, Leads (.start cfg mem) s ∧ Calm s ∧ spoolFull s.mon.shared = true ∧
      ∀ p ∈ K, s.sent p < cfg.nstrs := by
  obtain ⟨s, h1, hcalm, hsent, hshared⟩ := exists_calm cfg mem
  have hr : (program cfg mem).Reachable s := h1.reachable (.start rfl)
  obtain ⟨s', h2, hrest⟩ := hcalm.fill (K := K) hr rfl
    (by rw [hshared]; simpa [hsent, spoolInitShared] using hK)
    fun p _ => by
      rw [hsent]
      exact Nat.pos_of_ne_zero fun h0 => by
        rw [h0, Nat.mul_zero] at hK
        have := cfg.bufsize_pos
        omega
  exact ⟨s', h1.trans h2, hrest⟩

/-! ## When a run can go on for ever -/

/-- **Contended**: a thread that spins, or two threads that wake each other up, can find that they
have to wait and that nobody has changed that. -/
def Contended (cfg : Config) : Prop :=
  match cfg.build with
  | .part2 => 1 ≤ cfg.ncons ∨ cfg.bufsize + 1 ≤ cfg.nprods * cfg.nstrs
  | .part3 => 2 ≤ cfg.ncons ∨ 2 ≤ cfg.nprods ∧ cfg.bufsize + 2 ≤ cfg.nprods * cfg.nstrs
  | .part4 => False

theorem code_remove_waits_start (mem : Nat → Ptr Str) (n : Nat) (b : Build) :
    (code b .remove).waits (spoolInitShared mem n) = true := by
  cases b <;> simp [code, spoolRemove, spoolRemoveSafe, spoolRemoveCv1, spoolRemoveCv2,
    spoolInitShared, spoolEmpty]

theorem endless_of_contended (h : Contended cfg) (mem : Nat → Ptr Str) :
    Endless (.start cfg mem) := by
  obtain ⟨s, h1, hcalm, -, hshared⟩ := exists_calm cfg mem
  have hempty : (code cfg.build .remove).waits s.mon.shared = true := by
    rw [hshared]
    exact code_remove_waits_start ..
  unfold Contended at h
  cases hb : cfg.build with
  | part4 =>
    rw [hb] at h
    exact h.elim
  | part2 =>
    rw [hb] at h
    rcases h with hc | hp
    · exact h1.endless (hcalm.endless_of_spin hb (t := .inr ⟨0, hc⟩) ⟨hcalm.con _, rfl⟩ hempty)
    · have hprods : 0 < cfg.nprods := Nat.pos_of_ne_zero fun h0 => by
        rw [h0, Nat.zero_mul] at hp
        omega
      obtain ⟨s', h2, hcalm', hfull, hleft⟩ :=
        exists_full mem (K := {⟨0, hprods⟩}) (by simpa using hp)
      exact h2.endless (hcalm'.endless_of_spin hb (t := .inl ⟨0, hprods⟩)
        ⟨hleft _ (Finset.mem_singleton_self _), rfl⟩ ((code_insert_waits ..).trans hfull))
  | part3 =>
    rw [hb] at h
    rcases h with hc | ⟨hprods, hp⟩
    · exact h1.endless (hcalm.endless_of_exchange hb (t := .inr ⟨0, by omega⟩)
        (u := .inr ⟨1, hc⟩) (by simp) ⟨hcalm.con _, rfl⟩ ⟨hcalm.con _, rfl⟩ hempty hempty)
    · have hcard : ({⟨0, by omega⟩, ⟨1, hprods⟩} : Finset (Fin cfg.nprods)).card = 2 :=
        Finset.card_pair (by simp)
      obtain ⟨s', h2, hcalm', hfull, hleft⟩ :=
        exists_full mem (hcard.symm ▸ hp)
      exact h2.endless (hcalm'.endless_of_exchange hb (t := .inl ⟨0, by omega⟩)
        (u := .inl ⟨1, hprods⟩) (by simp) ⟨hleft _ (by simp), rfl⟩ ⟨hleft _ (by simp), rfl⟩
        ((code_insert_waits ..).trans hfull) ((code_insert_waits ..).trans hfull))

/-! ## When every run ends -/

/-- The strings whose inserts wait for their critical section are not in the buffer. -/
theorem stored_add_card_le (hr : (program cfg mem).Reachable s) {K : Finset (Fin cfg.nprods)}
    (hK : ∀ p ∈ K, ∃ o, (s.mon.phase (.inl p)).op = some o ∧ (s.mon.phase (.inl p)).ran = none) :
    stored s.mon.shared + K.card ≤ cfg.nprods * cfg.nstrs := by
  obtain ⟨q, hq, -, hperm⟩ := placed_perm hr
  have hstored : stored s.mon.shared = q.length := by
    rw [← contents_length, hq, List.length_map]
  have hbegun : s.begunStrings.length = ∑ p, s.begun p := by
    simp only [Run.begunStrings, List.length_flatMap, List.length_map, List.length_range]
    exact (Fin.sum_univ_def _).symm
  have hle : ∀ p ∈ Finset.univ, s.begun p + (if p ∈ K then 1 else 0) ≤ cfg.nstrs := fun p _ => by
    split_ifs with hp
    · obtain ⟨o, ho, hran⟩ := hK p hp
      have hsent := ((reachable_calls hr).producer p o ho).2
      simp only [Run.begun, hran, Option.isSome_none, Bool.false_eq_true, if_false]
      omega
    · exact begun_le hr p
  have hsum := Finset.sum_le_sum hle
  rw [Finset.sum_add_distrib, Finset.sum_ite_mem, Finset.univ_inter, Finset.sum_const,
    Finset.sum_const, Finset.card_univ, Fintype.card_fin, smul_eq_mul, smul_eq_mul] at hsum
  have hlen := hperm.length_eq
  rw [List.length_append] at hlen
  omega

/-- Without contention nobody spins, and threads of one kind do not wake each other up. -/
theorem settles_of_not_contended (h : ¬ Contended cfg) (hr : (program cfg mem).Reachable s) :
    Settles s := by
  unfold Contended at h
  cases hb : cfg.build with
  | part4 => exact settles_of_part4 hb hr
  | part2 =>
    rw [hb] at h
    have hretry : ∀ o, (code (α := Str) cfg.build o).retry = .spin := by
      rw [hb]
      intro o
      cases o <;> rfl
    refine ⟨?_, fun t o c d _ hwait => absurd ((hretry o).symm.trans hwait) (by simp)⟩
    refine program_invariant (I := fun s => ∀ t o, s.mon.phase t ≠ .retry o)
      (fun t o => by simp [Run.start, State.start]) (fun s s' hr hi hn t o ho => ?_) hr
    rcases next_mon hn with he | hstep
    · exact hi t o (he ▸ ho)
    rcases hstep.retry ho with hold | ⟨htest, hw, -⟩
    · exact hi t o hold
    -- a test that fails finds the buffer full, and there are too few strings for that
    cases t with
    | inr c => exact absurd c.isLt (by omega)
    | inl p =>
      obtain ⟨rfl, -⟩ := (reachable_calls hr).producer p o (by rw [htest]; rfl)
      have hfull := spoolFull_iff.mp ((code_insert_waits ..).symm.trans hw)
      have hle := stored_add_card_le hr (K := {p}) fun q hq => by
        rw [Finset.mem_singleton.mp hq, htest]
        exact ⟨_, rfl, rfl⟩
      have hsize := ((spooler_outline cfg.build cfg.bufsize mem).holds (reachable_mon hr)).data.size
      rw [Finset.card_singleton] at hle
      unfold stored at hle
      omega
  | part3 =>
    rw [hb] at h
    have hspin : ∀ o, (code (α := Str) cfg.build o).retry ≠ .spin := by
      rw [hb]
      exact fun o => by rw [code1_retry]; simp
    refine ⟨not_retry hspin (reachable_mon hr), ?_⟩
    intro t o c d hp _ u o' hu _
    have hh := (spooler_outline cfg.build cfg.bufsize mem).holds (reachable_mon hr)
    have hstop := hh.stop t o (Or.inl hp)
    have hsize := hh.data.size
    have hpos := cfg.bufsize_pos
    have htu : t ≠ u := fun he => by
      rw [he, hu] at hp
      exact absurd hp (by simp)
    have hcalls := reachable_calls hr
    cases t with
    | inl p =>
      obtain ⟨rfl, -⟩ := hcalls.producer p o (by rw [hp]; rfl)
      cases u with
      | inl q =>
        -- a full buffer and two strings more
        have hpq : p ≠ q := fun he => htu (he ▸ rfl)
        have hle := stored_add_card_le hr (K := {p, q}) fun x hx => by
          rcases Finset.mem_insert.mp hx with rfl | hx
          · rw [hp]
            exact ⟨_, rfl, rfl⟩
          · rw [Finset.mem_singleton.mp hx, hu]
            exact ⟨_, rfl, rfl⟩
        have hcap : s.mon.shared.capacity = 0 := spoolFull_iff.mp hstop
        have hprods : 2 ≤ cfg.nprods := by
          have := p.isLt
          have := q.isLt
          have := Fin.val_ne_of_ne hpq
          omega
        rw [Finset.card_pair hpq] at hle
        unfold stored at hle
        exact absurd (Or.inr ⟨hprods, by omega⟩) h
      | inr c =>
        obtain ⟨rfl, -⟩ := hcalls.consumer c o' (by rw [hu]; rfl)
        exact remove_goes hstop (by omega)
    | inr c =>
      obtain ⟨rfl, -⟩ := hcalls.consumer c o (by rw [hp]; rfl)
      cases u with
      | inl q =>
        obtain ⟨rfl, -⟩ := hcalls.producer q o' (by rw [hu]; rfl)
        exact insert_goes hstop (by omega) _
      | inr d =>
        have hcons : 2 ≤ cfg.ncons := by
          have := c.isLt
          have := d.isLt
          have := Fin.val_ne_of_ne fun he => htu (congrArg Sum.inr he)
          omega
        exact absurd (Or.inl hcons) h

/-- Where every step lowers the rank, no run is endless. -/
theorem not_endless (h : ¬ Contended cfg) (mem : Nat → Ptr Str) : ¬ Endless (.start cfg mem) := by
  rintro ⟨run, h0, hrun⟩
  have hr : ∀ n, (program cfg mem).Reachable (run n) := fun n => by
    induction n with
    | zero => exact .start h0
    | succ n ih =>
      obtain ⟨a, -, ha⟩ := hrun n
      exact ih.step ⟨a, ha⟩
  have hrank : ∀ n, (run n).rank + n ≤ (run 0).rank := fun n => by
    induction n with
    | zero => exact le_refl _
    | succ n ih =>
      obtain ⟨a, hspurious, ha⟩ := hrun n
      have hstep := rank_of_step (settles_of_not_contended h (hr n)) (hr n) ha
      rw [hspurious] at hstep
      simp only [Bool.false_eq_true, if_false] at hstep
      omega
  have := hrank ((run 0).rank + 1)
  omega

/-- **When a run of the spooler program can go on for ever**, whatever help it gets from the
scheduler and none from spurious wake-ups: with `PART2` if a consumer spins on the empty buffer or
a producer on the full one, with `PART3` if two consumers or two producers wake each other up, and
with `PART4` never. -/
theorem spooler_endless_iff (cfg : Config) (mem : Nat → Ptr Str) :
    Endless (.start cfg mem) ↔ Contended cfg :=
  ⟨fun he => by_contra fun h => not_endless h mem he, fun h => endless_of_contended h mem⟩

end SystemProgramming.Spooler
