import Mathlib.Algebra.BigOperators.Fin
import SystemProgramming.Spooler.Program

/-!
# Delivery

What the program keeps over every run, and exactly-once delivery.

* `Calls`: a thread inside the spooler is in the call its program text says.
* `Order`: what main has joined has terminated, and the flag is set exactly when main has called
  `spool_shutdown_efficient`.
* `Books`: the inserts of a producer are the strings it has sent, and the strings a consumer
  removed are those it printed followed by the one in its hands.
* `Drained`: a removal that returned `NULL` leaves the flag set and the buffer empty for good.
* `printed_exactly_once`: when all consumers have returned, every string of every producer has
  been printed exactly once.
-/

namespace SystemProgramming.Spooler

open Lib Lib.Monitor

variable {cfg : Config} {mem : Nat → Ptr Str} {s s' : Run cfg}

/-! ## Which call a thread is in -/

/-- A producer inserts its next string, a consumer at its call removes. -/
structure Calls (s : Run cfg) : Prop where
  producer : ∀ p o, (s.mon.phase (.inl p)).op = some o →
    o = .insert (prodString p (s.sent p)) ∧ s.sent p < cfg.nstrs
  consumer : ∀ c o, (s.mon.phase (.inr c)).op = some o → o = .remove ∧ s.con c = .calling

theorem calls_of_ops {s : Run cfg} (h : Calls s)
    {m : State (Thread cfg) (Op Str) (Spool Str) (Ret Str)}
    (hm : ∀ t, (m.phase t).op = (s.mon.phase t).op) : Calls { s with mon := m } :=
  ⟨fun p o ho => h.producer p o ((hm _).symm.trans ho),
    fun c o ho => h.consumer c o ((hm _).symm.trans ho)⟩

theorem next_calls (h : Calls s) (hn : Next s s') : Calls s' := by
  cases hn with
  | move t m hm => exact calls_of_ops h hm.op
  | spurious t o hp => exact calls_of_ops h (phase_goto (by rw [hp]; rfl))
  | insert p hp hn =>
    refine ⟨?_, fun c o ho => h.consumer c o ?_⟩
    · intro q o ho
      rw [goto_phase] at ho
      split_ifs at ho with hq
      · obtain rfl := Sum.inl.inj hq
        exact ⟨(Option.some.inj ho).symm, hn⟩
      · exact h.producer q o ho
    · rwa [goto_phase_of_ne _ _ (by simp)] at ho
  | inserted p o r hp =>
    refine ⟨?_, fun c o ho => h.consumer c o ?_⟩
    · intro q o ho
      rw [goto_phase] at ho
      split_ifs at ho with hq
      · exact absurd ho (by simp [Phase.op])
      · have hqp : q ≠ p := fun he => hq (he ▸ rfl)
        simp only [Function.update_of_ne hqp]
        exact h.producer q o ho
    · rwa [goto_phase_of_ne _ _ (by simp)] at ho
  | remove c hp hc =>
    refine ⟨fun p o ho => h.producer p o ?_, ?_⟩
    · rwa [goto_phase_of_ne _ _ (by simp)] at ho
    · intro d o ho
      rw [goto_phase] at ho
      split_ifs at ho with hd
      · obtain rfl := Sum.inr.inj hd
        exact ⟨(Option.some.inj ho).symm, hc⟩
      · exact h.consumer d o ho
  | removed c o r hp =>
    refine ⟨fun p o ho => h.producer p o ?_, ?_⟩
    · rwa [goto_phase_of_ne _ _ (by simp)] at ho
    · intro d o ho
      rw [goto_phase] at ho
      split_ifs at ho with hd
      · exact absurd ho (by simp [Phase.op])
      · have hdc : d ≠ c := fun he => hd (he ▸ rfl)
        simp only [Function.update_of_ne hdc]
        exact h.consumer d o ho
  | print c str hp hc =>
    refine ⟨h.producer, ?_⟩
    intro d o ho
    have hdc : d ≠ c := fun he => by
      rw [he, hp] at ho
      exact absurd ho (by simp [Phase.op])
    simp only [Function.update_of_ne hdc]
    exact h.consumer d o ho
  | create | joinProd | joinedProds | joinCon | skip | shutdown => exact ⟨h.producer, h.consumer⟩
  | broadcast hm =>
    have hc := calls_of_ops h (m := s.mon.wakeAll (code cfg.build) .conCv)
      fun t => (wakeAll_op _ _ t).1
    exact ⟨hc.producer, hc.consumer⟩

theorem reachable_calls (h : (program cfg mem).Reachable s) : Calls s := by
  refine program_invariant (I := Calls) ⟨fun p o ho => ?_, fun c o ho => ?_⟩
    (fun _ _ _ hi hn => next_calls hi hn) h <;>
    exact absurd ho (by simp [Run.start, State.start, Phase.op])

/-! ## What main has seen -/

/-- Main has joined the producer `p`. -/
def Main.joined (p : Nat) : Main → Bool
  | .create _ => false
  | .joinProds i => p < i
  | _ => true

/-- **The order of shutdown.** -/
structure Order (s : Run cfg) : Prop where
  joined : ∀ p : Fin cfg.nprods, s.main.joined p = true → s.terminated (.inl p) = true
  flag : s.mon.shared.shutdown = (s.main.shutdownCalled && decide (cfg.build ≠ .part2))

theorem terminated_inl {p : Fin cfg.nprods} :
    s.terminated (.inl p) = true ↔ (s.mon.phase (.inl p)).op = none ∧ cfg.nstrs ≤ s.sent p := by
  rw [op_eq_none_iff]
  simp [Run.terminated]

theorem shutdown_body (b : Build) (o : Op Str) (sp : Spool Str) :
    ((code b o).body sp).2.shutdown = sp.shutdown := by
  cases o with
  | insert item => rw [code_insert_body]; exact shutdown_spoolInsertUnchecked _ _
  | remove => rw [code_remove_body]; exact shutdown_spoolRemoveUnchecked _

theorem order_of_ops {s : Run cfg} (h : Order s)
    {m : State (Thread cfg) (Op Str) (Spool Str) (Ret Str)}
    (hm : ∀ t, (m.phase t).op = (s.mon.phase t).op)
    (hf : m.shared.shutdown = s.mon.shared.shutdown) : Order { s with mon := m } := by
  refine ⟨?_, hf.trans h.flag⟩
  intro p hp
  rw [terminated_inl]
  show (m.phase _).op = none ∧ _
  rw [hm]
  exact terminated_inl.mp (h.joined p hp)

/-- A move of a thread that has not terminated. -/
theorem order_goto {s : Run cfg} (h : Order s) {t : Thread cfg} {ph : Phase (Op Str) (Ret Str)}
    {snt : Fin cfg.nprods → Nat} (con : Fin cfg.ncons → Consumer)
    (ht : ∀ p, t = .inl p → s.terminated (.inl p) = false)
    (hs : ∀ q, t ≠ .inl q → snt q = s.sent q) :
    Order { s with mon := s.mon.goto t ph, sent := snt, con := con } := by
  refine ⟨?_, h.flag⟩
  intro q hq
  have hj := h.joined q hq
  have hne : t ≠ .inl q := fun he => by
    rw [ht q he] at hj
    exact absurd hj (by simp)
  rw [terminated_inl] at hj ⊢
  show ((s.mon.goto t ph).phase _).op = none ∧ cfg.nstrs ≤ snt q
  rw [goto_phase_of_ne _ _ (Ne.symm hne), hs q hne]
  exact hj

theorem next_order (h : Order s) (hn : Next s s') : Order s' := by
  cases hn with
  | move t m hm =>
    refine order_of_ops h hm.op ?_
    rcases hm.data with ⟨hd, -⟩ | ⟨o, -, hd, -⟩
    · rw [hd]
    · rw [hd, shutdown_body]
  | spurious t o hp => exact order_of_ops h (phase_goto (by rw [hp]; rfl)) rfl
  | insert p hp hn =>
    refine order_goto h s.con (fun q hq => ?_) fun _ _ => rfl
    obtain rfl := Sum.inl.inj hq
    rw [← Bool.not_eq_true, terminated_inl]
    omega
  | inserted p o r hp =>
    refine order_goto h s.con (fun q hq => ?_) fun q hq => Function.update_of_ne ?_ ..
    · obtain rfl := Sum.inl.inj hq
      rw [← Bool.not_eq_true, terminated_inl, hp]
      simp [Phase.op]
    · rintro rfl
      exact hq rfl
  | remove c hp hc => exact order_goto h s.con (by simp) fun _ _ => rfl
  | removed c o r hp => exact order_goto h _ (by simp) fun _ _ => rfl
  | print c str hp hc => exact ⟨h.joined, h.flag⟩
  | create i j m hm hm' =>
    have hf := h.flag
    rw [hm] at hf
    rcases hm' with rfl | rfl
    · exact ⟨fun p hp => absurd hp (by simp [Main.joined]), hf⟩
    · exact ⟨fun p hp => absurd hp (by simp [Main.joined]), hf⟩
  | joinProd i hm hj =>
    have hf := h.flag
    rw [hm] at hf
    refine ⟨?_, hf⟩
    intro p hp
    have hlt : (p : Nat) < i + 1 := by simpa [Main.joined] using hp
    rcases Nat.lt_succ_iff_lt_or_eq.mp hlt with hlt | heq
    · exact h.joined p (by rw [hm]; simpa [Main.joined] using hlt)
    · exact hj (.inl p) heq
  | joinedProds i hm hi =>
    have hf := h.flag
    rw [hm] at hf
    exact ⟨fun p _ => h.joined p (by rw [hm]; simp [Main.joined]; omega), hf⟩
  | joinCon i j m hm hm' =>
    have hf := h.flag
    rw [hm] at hf
    rcases hm' with rfl | rfl
    · exact ⟨fun p _ => h.joined p (by rw [hm]; rfl), hf⟩
    · exact ⟨fun p _ => h.joined p (by rw [hm]; rfl), hf⟩
  | skip hb hm =>
    have hf := h.flag
    rw [hm] at hf
    exact ⟨fun p _ => h.joined p (by rw [hm]; rfl), hf.trans (by simp [Main.shutdownCalled, hb])⟩
  | shutdown hb hm =>
    exact ⟨fun p _ => h.joined p (by rw [hm]; rfl), by simp [Main.shutdownCalled, hb]⟩
  | broadcast hm =>
    have hf := h.flag
    rw [hm] at hf
    have ho := order_of_ops h (m := s.mon.wakeAll (code cfg.build) .conCv)
      (fun t => (wakeAll_op _ _ t).1) rfl
    exact ⟨fun p _ => ho.joined p (by rw [hm]; rfl), hf⟩

theorem reachable_order (h : (program cfg mem).Reachable s) : Order s :=
  program_invariant (I := Order) ⟨fun p hp => absurd hp (by simp [Run.start, Main.joined]), rfl⟩
    (fun _ _ _ hi hn => next_order hi hn) h

/-! ## What the threads have done -/

/-- The string in the hands of a consumer: the one it is printing, or the one it is handed. -/
def hand : Consumer → Option (Op Str × Ret Str) → List Str
  | .printing str, _ => [str]
  | _, res => (res.bind removedItem).toList

/-- **The books**: finished calls against what the threads' own variables say. -/
structure Books (s : Run cfg) : Prop where
  sent_le : ∀ p, s.sent p ≤ cfg.nstrs
  producer : ∀ p, (s.mon.returns (.inl p)).map Prod.fst =
    (List.range (s.sent p)).map (fun n => Op.insert (prodString p n)) ++
      ((s.mon.phase (.inl p)).result.map Prod.fst).toList
  consumer : ∀ c, (s.mon.returns (.inr c)).filterMap removedItem =
    (s.stdout.filter fun e => e.1 = c).map Prod.snd ++ hand (s.con c) (s.mon.phase (.inr c)).result
  removes : ∀ c, ∀ e ∈ s.mon.returns (.inr c), e.1 = .remove
  last : ∀ t e, (s.mon.phase t).result = some e → e ∈ s.mon.returns t
  nulls : ∀ c, s.con c = .returned →
    ∃ r, (.remove, r) ∈ s.mon.returns (.inr c) ∧ Consumer.got r = .returned

theorem books_of_results {s : Run cfg} (h : Books s)
    {m : State (Thread cfg) (Op Str) (Spool Str) (Ret Str)} (hr : m.returns = s.mon.returns)
    (hm : ∀ t, (m.phase t).result = (s.mon.phase t).result) : Books { s with mon := m } := by
  refine ⟨h.sent_le, ?_, ?_, fun c e he => h.removes c e (hr ▸ he), ?_, ?_⟩
  · intro p
    rw [hr, hm]
    exact h.producer p
  · intro c
    rw [hr, hm]
    exact h.consumer c
  · intro t e he
    rw [hm] at he
    rw [hr]
    exact h.last t e he
  · intro c hc
    rw [hr]
    exact h.nulls c hc

/-- A call finishes: the books of its thread get one more entry. -/
theorem books_release {s : Run cfg} (hc : Calls s) (h : Books s)
    {m : State (Thread cfg) (Op Str) (Spool Str) (Ret Str)} {t : Thread cfg} {o : Op Str}
    {r : Ret Str} (hp : s.mon.phase t = .release o r)
    (hr : m.returns = Function.update s.mon.returns t (s.mon.returns t ++ [(o, r)]))
    (hm : m.phase = Function.update s.mon.phase t (.returned o r)) :
    Books { s with mon := m } := by
  have hop : (s.mon.phase t).op = some o := by rw [hp]; rfl
  have hres : (s.mon.phase t).result = none := by rw [hp]; rfl
  refine ⟨h.sent_le, ?_, ?_, ?_, ?_, ?_⟩
  · intro p
    have hb := h.producer p
    show (m.returns _).map _ = _ ++ ((m.phase _).result.map _).toList
    rw [hr, hm, Function.update_apply, Function.update_apply]
    split_ifs with ht
    · subst ht
      rw [hres] at hb
      rw [List.map_append, hb]
      simp [Phase.result]
    · exact hb
  · intro c
    have hb := h.consumer c
    show (m.returns _).filterMap _ = _ ++ hand _ (m.phase _).result
    rw [hr, hm, Function.update_apply, Function.update_apply]
    split_ifs with ht
    · subst ht
      have hcon := (hc.consumer c o hop).2
      rw [hres, hcon] at hb
      rw [List.filterMap_append, hb]
      show _ ++ _ = _ ++ hand (s.con c) _
      rw [hcon]
      cases hq : removedItem (o, r) <;> simp [hand, Phase.result, hq]
    · exact hb
  · intro c e he
    have he' : e ∈ m.returns (.inr c) := he
    rw [hr, Function.update_apply] at he'
    split_ifs at he' with ht
    · subst ht
      rcases List.mem_append.mp he' with he' | he'
      · exact h.removes c e he'
      · rw [List.mem_singleton.mp he']
        exact (hc.consumer c o hop).1
    · exact h.removes c e he'
  · intro u e he
    have he' : (m.phase u).result = some e := he
    show e ∈ m.returns u
    rw [hm, Function.update_apply] at he'
    rw [hr, Function.update_apply]
    split_ifs at he' ⊢ with hu
    · obtain rfl := Option.some.inj he'
      exact List.mem_append_right _ (List.mem_singleton_self _)
    · exact h.last u e he'
  · intro c hcon
    obtain ⟨r', hr', hg⟩ := h.nulls c hcon
    refine ⟨r', ?_, hg⟩
    show _ ∈ m.returns _
    rw [hr, Function.update_apply]
    split_ifs with ht
    · rw [ht] at hr'
      exact List.mem_append_left _ hr'
    · exact hr'

/-- A producer takes the result of its insert and goes on to the next string. -/
theorem books_inserted {s : Run cfg} (hc : Calls s) (h : Books s) {p : Fin cfg.nprods} {o : Op Str}
    {r : Ret Str} (hp : s.mon.phase (.inl p) = .returned o r) :
    Books { s with
      mon := s.mon.goto (.inl p) .idle
      sent := Function.update s.sent p (s.sent p + 1) } := by
  obtain ⟨rfl, hlt⟩ := hc.producer p o (by rw [hp]; rfl)
  refine ⟨?_, ?_, ?_, h.removes, ?_, h.nulls⟩
  · intro q
    show Function.update s.sent p _ q ≤ _
    rw [Function.update_apply]
    split_ifs
    · exact hlt
    · exact h.sent_le q
  · intro q
    have hb := h.producer q
    show (s.mon.returns _).map _ = (List.range (Function.update s.sent p _ q)).map _ ++
      (((s.mon.goto (.inl p) .idle).phase _).result.map _).toList
    by_cases hq : q = p
    · subst hq
      rw [hb, hp, Function.update_self, goto_phase_self, List.range_succ, List.map_append]
      simp [Phase.result]
    · rw [Function.update_of_ne hq, goto_phase_of_ne _ _ (by simpa using hq)]
      exact hb
  · intro c
    show _ = _ ++ hand _ ((s.mon.goto (.inl p) .idle).phase _).result
    rw [goto_phase_of_ne _ _ (by simp)]
    exact h.consumer c
  · intro u e he
    have he' : ((s.mon.goto (.inl p) .idle).phase u).result = some e := he
    rw [goto_phase] at he'
    split_ifs at he'
    · exact absurd he' (by simp [Phase.result])
    · exact h.last u e he'

/-- A consumer takes the result of its removal. -/
theorem books_removed {s : Run cfg} (hc : Calls s) (h : Books s) {c : Fin cfg.ncons} {o : Op Str}
    {r : Ret Str} (hp : s.mon.phase (.inr c) = .returned o r) :
    Books { s with
      mon := s.mon.goto (.inr c) .idle
      con := Function.update s.con c (.got r) } := by
  obtain ⟨rfl, hcall⟩ := hc.consumer c o (by rw [hp]; rfl)
  have hlast := h.last (.inr c) (.remove, r) (by rw [hp]; rfl)
  refine ⟨h.sent_le, ?_, ?_, h.removes, ?_, ?_⟩
  · intro p
    show _ = _ ++ (((s.mon.goto (.inr c) .idle).phase _).result.map _).toList
    rw [goto_phase_of_ne _ _ (by simp)]
    exact h.producer p
  · intro d
    have hb := h.consumer d
    show _ = _ ++ hand (Function.update s.con c _ d) ((s.mon.goto (.inr c) .idle).phase _).result
    by_cases hd : d = c
    · subst hd
      refine hb.trans ?_
      rw [hcall, hp, Function.update_self, goto_phase_self]
      match r with
      | .ptr (some str) => rfl
      | .ptr none => rfl
      | .void => rfl
    · rw [Function.update_of_ne hd, goto_phase_of_ne _ _ (by simpa using hd)]
      exact hb
  · intro u e he
    have he' : ((s.mon.goto (.inr c) .idle).phase u).result = some e := he
    rw [goto_phase] at he'
    split_ifs at he'
    · exact absurd he' (by simp [Phase.result])
    · exact h.last u e he'
  · intro d hd
    have hd' : Function.update s.con c (.got r) d = .returned := hd
    rw [Function.update_apply] at hd'
    split_ifs at hd' with hdc
    · rw [hdc]
      exact ⟨r, hlast, hd'⟩
    · exact h.nulls d hd'

/-- A consumer prints the string in its hands. -/
theorem books_print {s : Run cfg} (h : Books s) {c : Fin cfg.ncons} {str : Str}
    (hp : s.mon.phase (.inr c) = .idle) (hcon : s.con c = .printing str) :
    Books { s with
      con := Function.update s.con c .calling
      stdout := s.stdout ++ [(c, str)] } := by
  refine ⟨h.sent_le, h.producer, ?_, h.removes, h.last, ?_⟩
  · intro d
    have hb := h.consumer d
    show _ = ((s.stdout ++ [(c, str)]).filter fun e => e.1 = d).map Prod.snd ++
      hand (Function.update s.con c _ d) _
    rw [hb, List.filter_append, List.map_append]
    by_cases hd : d = c
    · subst hd
      rw [hcon, Function.update_self, hp]
      simp [hand, Phase.result]
    · rw [Function.update_of_ne hd]
      simp [Ne.symm hd]
  · intro d hd
    have hd' : Function.update s.con c .calling d = .returned := hd
    rw [Function.update_apply] at hd'
    split_ifs at hd'
    exact h.nulls d hd'

theorem next_books (hc : Calls s) (h : Books s) (hn : Next s s') : Books s' := by
  cases hn with
  | move t m hm =>
    rcases hm.finish with ⟨hr, hp⟩ | ⟨o, r, hp, hr, hm'⟩
    · exact books_of_results h hr hp
    · exact books_release hc h hp hr hm'
  | spurious t o hp => exact books_of_results h rfl (phase_goto (by rw [hp]; rfl))
  | insert p hp hn => exact books_of_results h rfl (phase_goto (by rw [hp]; rfl))
  | inserted p o r hp => exact books_inserted hc h hp
  | remove c hp hcon => exact books_of_results h rfl (phase_goto (by rw [hp]; rfl))
  | removed c o r hp => exact books_removed hc h hp
  | print c str hp hcon => exact books_print h hp hcon
  | create | joinProd | joinedProds | joinCon | skip | shutdown =>
    exact ⟨h.sent_le, h.producer, h.consumer, h.removes, h.last, h.nulls⟩
  | broadcast hm =>
    have hb := books_of_results h (m := s.mon.wakeAll (code cfg.build) .conCv) rfl
      fun t => (wakeAll_op _ _ t).2
    exact ⟨hb.sent_le, hb.producer, hb.consumer, hb.removes, hb.last, hb.nulls⟩

theorem reachable_books (h : (program cfg mem).Reachable s) : Books s :=
  program_invariant (I := Books)
    ⟨fun _ => Nat.zero_le _, fun _ => rfl, fun _ => rfl,
      fun _ e he => absurd he (by simp [Run.start, State.start]),
      fun _ e he => absurd he (by simp [Run.start, State.start, Phase.result]),
      fun _ hc => absurd hc (by simp [Run.start])⟩
    (fun _ _ hr hi hn => next_books (reachable_calls hr) hi hn) h

/-! ## After `NULL` -/

/-- **`NULL` means drained**: once a removal has returned something that ends its consumer's
loop, the flag is set and the buffer is empty. -/
def Drained (s : Run cfg) : Prop :=
  ∀ t r, (t, .remove, r) ∈ s.mon.log → Consumer.got r = .returned →
    s.mon.shared.shutdown = true ∧ contents s.mon.shared = []

/-- With the flag set, all producers have terminated. -/
theorem Order.terminated_of_shutdown (ho : Order s) (hs : s.mon.shared.shutdown = true)
    (p : Fin cfg.nprods) :
    (s.mon.phase (.inl p)).op = none ∧ cfg.nstrs ≤ s.sent p := by
  have hm : s.main.shutdownCalled = true := (Bool.and_eq_true_iff.mp (ho.flag.symm.trans hs)).1
  have hj : s.main.joined p = true := by
    cases hp : s.main with
    | broadcast | joinCons | returned => rfl
    | _ => rw [hp] at hm; exact absurd hm (by simp [Main.shutdownCalled])
  exact terminated_inl.mp (ho.joined p hj)

/-- With the flag set, only removals run. -/
theorem remove_of_shutdown (hc : Calls s) (ho : Order s) (hs : s.mon.shared.shutdown = true)
    {t : Thread cfg} {o : Op Str} (ht : (s.mon.phase t).op = some o) : o = .remove := by
  cases t with
  | inl p =>
    have := (ho.terminated_of_shutdown hs p).1
    rw [ht] at this
    exact absurd this (by simp)
  | inr c => exact (hc.consumer c o ht).1

/-- A removal that goes on and returns `NULL` found the flag set and the buffer empty. -/
theorem removeBody_null {b : Build} {n : Nat} {log : List (Thread cfg × Op Str × Ret Str)}
    {sp : Spool Str} (hd : Data b n log sp) (hg : Goes b .remove sp)
    (hr : Consumer.got (removeBody sp).1 = .returned) :
    sp.shutdown = true ∧ spoolEmpty sp = true := by
  have he : spoolEmpty sp = true := by
    by_contra he
    obtain ⟨x, hx⟩ := hd.removeBody_item (by simpa using he)
    rw [hx] at hr
    exact absurd hr (by simp [Consumer.got])
  rcases code_remove_goes hg with hne | ⟨-, hs⟩
  · exact absurd (he.symm.trans hne) (by simp)
  · exact ⟨hs, he⟩

theorem next_drained (hr : (program cfg mem).Reachable s) (h : Drained s) (hn : Next s s') :
    Drained s' := by
  have hc := reachable_calls hr
  have ho := reachable_order hr
  have hh := (spooler_outline cfg.build cfg.bufsize mem).holds (reachable_mon hr)
  cases hn with
  | move t m hm =>
    rcases hm.data with ⟨hx, hl⟩ | ⟨o, hp, hx, hl⟩
    · intro u r hu hg
      show m.shared.shutdown = true ∧ contents m.shared = []
      rw [hx]
      exact h u r (hl ▸ hu) hg
    · -- with the flag set and the buffer empty, this body is a removal and changes nothing
      have hkeep : s.mon.shared.shutdown = true ∧ contents s.mon.shared = [] →
          m.shared.shutdown = true ∧ contents m.shared = [] := by
        rintro ⟨hs, he⟩
        obtain rfl := remove_of_shutdown hc ho hs (t := t) (o := o) (by rw [hp]; rfl)
        rw [hx, code_remove_body]
        show (spoolRemoveUnchecked s.mon.shared).2.shutdown = true ∧
          contents (spoolRemoveUnchecked s.mon.shared).2 = []
        rw [spoolRemoveUnchecked_of_empty ((spoolEmpty_iff_contents hh.data.ring).mpr he)]
        exact ⟨hs, he⟩
      intro u r hu hg
      have hu' : (u, .remove, r) ∈ m.log := hu
      rw [hl] at hu'
      rcases List.mem_append.mp hu' with hu' | hu'
      · exact hkeep (h u r hu' hg)
      · obtain ⟨-, ho'⟩ := Prod.mk.inj (List.mem_singleton.mp hu')
        obtain ⟨rfl, rfl⟩ := Prod.mk.inj ho'
        rw [code_remove_body] at hg
        obtain ⟨hs, he⟩ := removeBody_null hh.data (hh.go t _ hp) hg
        exact hkeep ⟨hs, (spoolEmpty_iff_contents hh.data.ring).mp he⟩
  | shutdown hb hm => exact fun u r hu hg => ⟨rfl, (h u r hu hg).2⟩
  | _ => exact h

theorem reachable_drained (h : (program cfg mem).Reachable s) : Drained s :=
  program_invariant (I := Drained) (fun _ _ hu => absurd hu (by simp [Run.start, State.start]))
    (fun _ _ hr hi hn => next_drained hr hi hn) h

/-! ## Exactly-once delivery -/

/-- When all consumers have returned: the flag is set, the buffer is empty, all producers have
terminated and nobody is inside the spooler. -/
theorem all_done (hc : 1 ≤ cfg.ncons) (h : (program cfg mem).Reachable s)
    (hret : ∀ c, s.con c = .returned) :
    contents s.mon.shared = [] ∧ (∀ p, s.sent p = cfg.nstrs) ∧ ∀ t, s.mon.phase t = .idle := by
  have hb := reachable_books h
  have hwf := reachable_wf (reachable_mon h)
  have hcalls := reachable_calls h
  have ho := reachable_order h
  obtain ⟨r, hr, hg⟩ := hb.nulls ⟨0, hc⟩ (hret _)
  obtain ⟨hs, hempty⟩ := reachable_drained h _ r (hwf.mem_log_of_returns hr) hg
  refine ⟨hempty, fun p => le_antisymm (hb.sent_le p) (ho.terminated_of_shutdown hs p).2,
    fun t => op_eq_none_iff.mp ?_⟩
  cases t with
  | inl p => exact (ho.terminated_of_shutdown hs p).1
  | inr c =>
    rw [Option.eq_none_iff_forall_ne_some]
    intro o hp
    have := (hcalls.consumer c o hp).2
    rw [hret c] at this
    exact absurd this (by simp)

/-- What the finished calls of a producer inserted and removed. -/
theorem Books.producer_items (hb : Books s) {p : Fin cfg.nprods}
    (hp : s.mon.phase (.inl p) = .idle) :
    (s.mon.returns (.inl p)).filterMap insertedItem = (List.range (s.sent p)).map (prodString p) ∧
      (s.mon.returns (.inl p)).filterMap removedItem = [] := by
  have h := hb.producer p
  rw [hp] at h
  have h : (s.mon.returns (.inl p)).map Prod.fst =
      (List.range (s.sent p)).map fun n => Op.insert (prodString p n) := by
    simpa [Phase.result] using h
  constructor
  · calc (s.mon.returns (.inl p)).filterMap insertedItem
        = ((s.mon.returns (.inl p)).map Prod.fst).filterMap fun o => insertedItem (o, .void) := by
          rw [List.filterMap_map]
          congr 1
          funext ⟨o, r⟩
          cases o <;> rfl
      _ = (List.range (s.sent p)).map (prodString p) := by
          rw [h, List.filterMap_map]
          exact List.filterMap_eq_map ▸ rfl
  · refine List.filterMap_eq_nil_iff.mpr fun e he => ?_
    obtain ⟨n, -, hn⟩ := List.mem_map.mp (h ▸ List.mem_map_of_mem he)
    obtain ⟨o, r⟩ := e
    obtain rfl : Op.insert _ = o := hn
    rfl

/-- What the finished calls of a consumer that has returned inserted and removed. -/
theorem Books.consumer_items (hb : Books s) {c : Fin cfg.ncons} (hc : s.con c = .returned)
    (hp : s.mon.phase (.inr c) = .idle) :
    (s.mon.returns (.inr c)).filterMap insertedItem = [] ∧
      (s.mon.returns (.inr c)).filterMap removedItem =
        (s.stdout.filter fun e => e.1 = c).map Prod.snd := by
  refine ⟨List.filterMap_eq_nil_iff.mpr fun e he => ?_, ?_⟩
  · obtain ⟨o, r⟩ := e
    obtain rfl : o = .remove := hb.removes c _ he
    rfl
  · rw [hb.consumer c, hc, hp]
    exact List.append_nil _

/-- What was printed, counted, is what the producers sent. -/
theorem count_printed (hc : 1 ≤ cfg.ncons) (h : (program cfg mem).Reachable s)
    (hret : ∀ c, s.con c = .returned) (x : Str) :
    (s.stdout.map Prod.snd).count x =
      ∑ p : Fin cfg.nprods, ((List.range cfg.nstrs).map (prodString p)).count x := by
  have hb := reachable_books h
  obtain ⟨hempty, hsent, hidle⟩ := all_done hc h hret
  have hcalls : ∀ t, callsOf t s.mon.log = s.mon.returns t := fun t => by
    rw [(reachable_wf (reachable_mon h)).calls t, hidle t]
    exact List.append_nil _
  have hfifo : returned s.mon.log = inserted s.mon.log := by
    have := ((spooler_outline cfg.build cfg.bufsize mem).holds (reachable_mon h)).data.fifo
    rw [hempty, List.append_nil] at this
    exact List.map_injective_iff.mpr (Option.some_injective _) this
  -- a history is the sum of the threads' finished calls
  have hfibre : ∀ f : Op Str × Ret Str → Option Str,
      (s.mon.log.filterMap fun e => f e.2).count x =
        ∑ p, ((s.mon.returns (.inl p)).filterMap f).count x +
          ∑ c, ((s.mon.returns (.inr c)).filterMap f).count x := fun f => by
    rw [count_filterMap_fibres Prod.fst, Fintype.sum_sum_type]
    simp only [← hcalls, callsOf, List.filterMap_map]
    rfl
  calc (s.stdout.map Prod.snd).count x
      = ∑ c, ((s.stdout.filter fun e => e.1 = c).map Prod.snd).count x := by
        simp only [← List.filterMap_eq_map]
        exact count_filterMap_fibres Prod.fst _ x _
    _ = (returned s.mon.log).count x := by
        rw [returned, hfibre]
        simp only [(hb.producer_items (hidle _)).2, (hb.consumer_items (hret _) (hidle _)).2,
          List.count_nil, Finset.sum_const_zero, Nat.zero_add]
    _ = (inserted s.mon.log).count x := by rw [hfifo]
    _ = ∑ p : Fin cfg.nprods, ((List.range cfg.nstrs).map (prodString p)).count x := by
        rw [inserted, hfibre]
        simp only [(hb.producer_items (hidle _)).1, (hb.consumer_items (hret _) (hidle _)).1,
          List.count_nil, Finset.sum_const_zero, Nat.add_zero, hsent]

/-- All strings of all producers. -/
def prodStrings (cfg : Config) : List Str :=
  (List.finRange cfg.nprods).flatMap fun p : Fin cfg.nprods =>
    (List.range cfg.nstrs).map (prodString p)

theorem prodStrings_nodup (cfg : Config) : (prodStrings cfg).Nodup := by
  have hle : ∀ (p : Fin cfg.nprods) n, n < cfg.nstrs → (p : Nat) ≤ cIntMax ∧ n ≤ cIntMax := by
    intro p n hn
    have h1 := cfg.nthreads_le
    have h2 := cfg.nstrs_le
    have h3 := p.isLt
    omega
  refine List.nodup_flatMap.mpr ⟨?_, ?_⟩
  · intro p _
    refine List.Nodup.map_on (fun n hn m hm he => ?_) List.nodup_range
    obtain ⟨hp, hn⟩ := hle p n (List.mem_range.mp hn)
    obtain ⟨-, hm⟩ := hle p m (List.mem_range.mp hm)
    exact (prodString_injective hp hn hp hm he).2
  · refine (List.nodup_finRange _).imp fun {p q} hpq => ?_
    rw [Function.onFun, List.disjoint_left]
    intro x hx hx'
    obtain ⟨n, hn, rfl⟩ := List.mem_map.mp hx
    obtain ⟨m, hm, he⟩ := List.mem_map.mp hx'
    obtain ⟨hp, hn⟩ := hle p n (List.mem_range.mp hn)
    obtain ⟨hq, hm⟩ := hle q m (List.mem_range.mp hm)
    exact hpq (Fin.ext (prodString_injective hq hm hp hn he).1.symm)

theorem mem_prodStrings {str : Str} :
    str ∈ prodStrings cfg ↔ ∃ p < cfg.nprods, ∃ n < cfg.nstrs, str = prodString p n := by
  unfold prodStrings
  simp only [List.mem_flatMap, List.mem_finRange, true_and, List.mem_map, List.mem_range]
  constructor
  · rintro ⟨p, n, hn, rfl⟩
    exact ⟨p, p.isLt, n, hn, rfl⟩
  · rintro ⟨p, hp, n, hn, rfl⟩
    exact ⟨⟨p, hp⟩, n, hn, rfl⟩

/-- The lines printed are the producers' strings in some order. -/
theorem printed_perm (hc : 1 ≤ cfg.ncons) (h : (program cfg mem).Reachable s)
    (hret : ∀ c, s.con c = .returned) : (s.stdout.map Prod.snd).Perm (prodStrings cfg) := by
  refine List.perm_iff_count.mpr fun x => ?_
  rw [count_printed hc h hret, prodStrings, List.count_flatMap, Fin.sum_univ_def]
  rfl

/-- **Exactly-once delivery.** A removal returns `NULL` only with the flag set and the buffer
empty, and when all consumers have returned, the strings printed are the producers' strings, each
printed once. -/
theorem printed_exactly_once (hc : 1 ≤ cfg.ncons) (h : (program cfg mem).Reachable s) :
    (∀ t, (t, .remove, .ptr none) ∈ s.mon.log →
      s.mon.shared.shutdown = true ∧ contents s.mon.shared = []) ∧
    ((∀ c, s.con c = .returned) →
      (s.stdout.map Prod.snd).Nodup ∧
        ∀ str, str ∈ s.stdout.map Prod.snd ↔
          ∃ p < cfg.nprods, ∃ n < cfg.nstrs, str = prodString p n) := by
  refine ⟨fun t ht => reachable_drained h t _ ht rfl, ?_⟩
  intro hret
  have hperm := printed_perm hc h hret
  exact ⟨hperm.nodup_iff.mpr (prodStrings_nodup cfg),
    fun str => hperm.mem_iff.trans mem_prodStrings⟩

/-- A run to the end. -/
theorem printed_exactly_once_onePair :
    ∃ s : Run (onePair .part3), (program (onePair .part3) fun _ => none).Reachable s ∧
      s.con (theConsumer .part3) = .returned ∧ (s.stdout.map Prod.snd).Nodup ∧
        prodString 0 0 ∈ s.stdout.map Prod.snd := by
  obtain ⟨s, hr, hs⟩ := reachable_of_any (fun _ => none) (AnyStep _)
    (mainSteps 3 ++ steps 7 (.inl (theProducer .part3)) ++ mainSteps 4 ++
      steps 15 (.inr (theConsumer .part3)))
    (p := fun s => s.con (theConsumer .part3) = .returned) (by decide)
  have hcon : s.con (theConsumer .part3) = .returned := of_decide_eq_true hs
  obtain ⟨hnd, hmem⟩ := (printed_exactly_once (le_refl 1) hr.of_restrict).2 fun c => by
    obtain rfl : c = theConsumer .part3 := Subsingleton.elim (α := Fin 1) _ _
    exact hcon
  exact ⟨s, hr.of_restrict, hcon, hnd, (hmem _).mpr ⟨0, Nat.one_pos, 0, Nat.one_pos, rfl⟩⟩

end SystemProgramming.Spooler
