import SystemProgramming.Spooler.Procedures

/-!
# Signals and wait sets of the spoolers

With two condition variables (`spooler_two_cv.c`) the tokens of `con_cv` are the stored items,
which removals take, and the tokens of `pro_cv` are the free slots, which inserts take.
With one (`spooler_one_cv.c`) there are no tokens: a signal may go to a thread of the wrong kind.
What helps there is that both procedures signal before they wait.

* `spooler2_no_lost_wakeup`: with two condition variables, if a consumer is blocked then every
  stored item has a consumer awake for it, and if a producer is blocked every free slot has a
  producer.
* `spooler1_one_blocked`: with one condition variable at most one thread is blocked.
-/

namespace SystemProgramming.Spooler

open Lib Lib.Monitor

variable {α ι : Type}

/-! ## Two condition variables -/

/-- A consumer that is inside `spool_remove` and is woken or waits for `buf_lock`. -/
def consumerAwake : Phase (Op α) (Ret α) → Bool
  | .lock .remove | .woken .remove => true
  | _ => false

/-- A producer that is inside `spool_insert` and is woken or waits for `buf_lock`. -/
def producerAwake : Phase (Op α) (Ret α) → Bool
  | .lock (.insert _) | .woken (.insert _) => true
  | _ => false

theorem stored_spoolRemoveUnchecked_le {sp : Spool α} (h : Ring sp) :
    stored (spoolRemoveUnchecked sp).2 ≤ stored sp - 1 := by
  cases he : spoolEmpty sp with
  | true =>
    have := (spoolEmpty_iff h).mp he
    rw [spoolRemoveUnchecked_of_empty he]
    exact le_of_eq_of_le this (Nat.zero_le _)
  | false =>
    have := stored_spoolRemoveUnchecked h he
    omega

theorem capacity_spoolRemoveUnchecked_le (sp : Spool α) :
    (spoolRemoveUnchecked sp).2.capacity ≤ sp.capacity + 1 := by
  unfold spoolRemoveUnchecked
  split_ifs
  · exact Nat.le_succ _
  · exact le_refl _

/-- **Stored items are the tokens of `con_cv`.** -/
theorem items_tokens (n : Nat) :
    Tokens (ι := ι) (code (α := α) .part4) .conCv shutdownWrites (Data .part4 n) (Goes .part4) Stops
      stored where
  block := fun _ o sp hd hc hs => by
    cases o with
    | insert item => exact absurd hc (by simp [code, spoolInsert, spoolInsertCv2, Retry.on])
    | remove => exact (spoolEmpty_iff hd.ring).mp hs
  take := fun _ o sp hd hc _ => by
    cases o with
    | insert item => exact absurd hc (by simp [code, spoolInsert, spoolInsertCv2, Retry.on])
    | remove => exact stored_spoolRemoveUnchecked_le hd.ring
  give := fun _ o sp hd hc hg => by
    cases o with
    | insert item => exact le_of_eq (stored_spoolInsertUnchecked hd.ring hg _)
    | remove => exact absurd rfl hc
  env := fun sp sp' he => by
    subst he
    exact le_refl _

/-- **Free slots are the tokens of `pro_cv`.** -/
theorem slots_tokens (n : Nat) :
    Tokens (ι := ι) (code (α := α) .part4) .proCv shutdownWrites (Data .part4 n) (Goes .part4) Stops
      Spool.capacity where
  block := fun _ o sp _ hc hs => by
    cases o with
    | insert item => exact spoolFull_iff.mp hs
    | remove => exact absurd hc (by simp [code, spoolRemove, spoolRemoveCv2, Retry.on])
  take := fun _ o sp hd hc hg => by
    cases o with
    | insert item =>
      show (spoolInsertUnchecked sp (some item)).capacity ≤ sp.capacity - 1
      rw [spoolInsertUnchecked_of_room hd.ring hg]
    | remove => exact absurd hc (by simp [code, spoolRemove, spoolRemoveCv2, Retry.on])
  give := fun _ o sp _ hc _ => by
    cases o with
    | insert item => exact absurd rfl hc
    | remove => exact capacity_spoolRemoveUnchecked_le sp
  env := fun sp sp' he => by
    subst he
    exact le_refl _

/-- Outside `buf_lock`, the threads on their way to an item are the consumers awake. -/
theorem coming_conCv {p : Phase (Op α) (Ret α)} (h : p.holds = false) :
    coming (code .part4) .conCv p = consumerAwake p := by
  cases p with
  | idle | returned | blocked => rfl
  | lock o | woken o => cases o <;> rfl
  | _ => exact absurd h (by simp [Phase.holds])

/-- Outside `buf_lock`, the threads on their way to a free slot are the producers awake. -/
theorem coming_proCv {p : Phase (Op α) (Ret α)} (h : p.holds = false) :
    coming (code .part4) .proCv p = producerAwake p := by
  cases p with
  | idle | returned | blocked => rfl
  | lock o | woken o => cases o <;> rfl
  | _ => exact absurd h (by simp [Phase.holds])

variable [Fintype ι]

/-- A thread blocked in `o` is in the wait set of the condition variable `o` waits on. -/
theorem blockedOn_pos {b : Build} {c : Cv} {s : State ι (Op α) (Spool α) (Ret α)} {t : ι} {o : Op α}
    (hp : s.phase t = .blocked o) (hc : (code b o).retry.on = some c) :
    blockedOn (code b) c s ≠ 0 := by
  have : 0 < blockedOn (code b) c s := count_pos_iff.mpr ⟨t, by rw [hp]; simp [onCv, hc]⟩
  omega

variable [DecidableEq ι] {mem : Nat → Ptr α} {n : Nat} {s : State ι (Op α) (Spool α) (Ret α)}

theorem items_le_awake (h : (spooler .part4 ι mem n).Reachable s) (hf : s.owner = none)
    {t : ι} (ht : s.phase t = .blocked .remove) :
    stored s.shared ≤ count consumerAwake s.phase := by
  have hm := (reachable_wf h).mutex
  rcases (items_tokens n).no_lost_wakeup (spooler_outline .part4 n mem) h with h0 | hle
  · exact absurd h0 (blockedOn_pos ht rfl)
  · rwa [owed_eq_zero hm hf, comingTo_of_free hm hf fun _ => coming_conCv] at hle

theorem slots_le_awake (h : (spooler .part4 ι mem n).Reachable s) (hf : s.owner = none)
    {t : ι} {item : α} (ht : s.phase t = .blocked (.insert item)) :
    s.shared.capacity ≤ count producerAwake s.phase := by
  have hm := (reachable_wf h).mutex
  rcases (slots_tokens n).no_lost_wakeup (spooler_outline .part4 n mem) h with h0 | hle
  · exact absurd h0 (blockedOn_pos ht rfl)
  · rwa [owed_eq_zero hm hf, comingTo_of_free hm hf fun _ => coming_proCv] at hle

omit [Fintype ι] [DecidableEq ι] in
/-- The owner of the mutex is awake. -/
theorem free_of_nobody_awake (h : Mutex s) (hn : ∀ t, (s.phase t).awake = false) :
    s.owner = none := by
  cases hf : s.owner with
  | none => rfl
  | some t =>
    have hh := (h t).mp hf
    have ha := hn t
    cases hp : s.phase t <;> rw [hp] at hh ha <;> simp [Phase.holds, Phase.awake] at hh ha

/-- **No wake-up is lost with two condition variables.** With `buf_lock` free, a blocked consumer
means that every stored item has a consumer awake for it, and a blocked producer that every free
slot has a producer. So a consumer and a producer are never both blocked with nobody awake. -/
theorem spooler2_no_lost_wakeup (hn : 1 ≤ n) (h : (spooler .part4 ι mem n).Reachable s) :
    (s.owner = none →
      ((∃ t, s.phase t = .blocked .remove) → stored s.shared ≤ count consumerAwake s.phase) ∧
      ((∃ t item, s.phase t = .blocked (.insert item)) →
        s.shared.capacity ≤ count producerAwake s.phase)) ∧
    ¬ ((∃ t, s.phase t = .blocked .remove) ∧ (∃ t item, s.phase t = .blocked (.insert item)) ∧
      ∀ t, (s.phase t).awake = false) := by
  refine ⟨fun hf => ⟨fun ⟨t, ht⟩ => items_le_awake h hf ht, fun ⟨t, _, ht⟩ => slots_le_awake h hf
    ht⟩, ?_⟩
  rintro ⟨⟨t, ht⟩, ⟨u, item, hu⟩, hawake⟩
  have hf := free_of_nobody_awake (reachable_wf h).mutex hawake
  have h1 := items_le_awake h hf ht
  have h2 := slots_le_awake h hf hu
  have hc : count consumerAwake s.phase = 0 := count_eq_zero_iff.mpr fun t => by
    have := hawake t
    cases hp : s.phase t <;> rw [hp] at this <;>
      first | rfl | exact absurd this (by simp [Phase.awake])
  have hp : count producerAwake s.phase = 0 := count_eq_zero_iff.mpr fun t => by
    have := hawake t
    cases hp : s.phase t <;> rw [hp] at this <;>
      first | rfl | exact absurd this (by simp [Phase.awake])
  -- no items and no free slots, in a buffer of at least one slot
  have hd := ((spooler_outline .part4 n mem).holds h).data
  have hs := hd.size
  rw [hc] at h1
  rw [hp] at h2
  unfold stored at h1
  omega

/-- Two consumers block, and an insert wakes one of them: there is one item, and one consumer awake
for it. -/
theorem spooler2_no_lost_wakeup_woken :
    ∃ s : State (Fin 3) (Op Nat) (Spool Nat) (Ret Nat),
      (spooler .part4 (Fin 3) (fun _ => none) 1).Reachable s ∧ s.owner = none ∧
        s.phase 0 = .woken .remove ∧ s.phase 1 = .blocked .remove ∧ stored s.shared = 1 ∧
        stored s.shared ≤ count consumerAwake s.phase := by
  have h0 := spooler_start (α := Nat) .part4 (Fin 3) (fun _ => none) 1
  have h1 := h0.step (.call 0 .remove rfl)
  have h2 := h1.step (.move 0 _ (.acquire .remove (Or.inl rfl) rfl))
  have h3 := h2.step (.move 0 _ (.stop .remove rfl rfl))
  have h4 := h3.step (.move 0 _ (.passOn .remove .proCv .conCv _ rfl rfl (.lost (by decide))))
  have h5 := h4.step (.move 0 _ (.wait .remove rfl))
  have h6 := h5.step (.call 1 .remove rfl)
  have h7 := h6.step (.move 1 _ (.acquire .remove (Or.inl rfl) rfl))
  have h8 := h7.step (.move 1 _ (.stop .remove rfl rfl))
  have h9 := h8.step (.move 1 _ (.passOn .remove .proCv .conCv _ rfl rfl (.lost (by decide))))
  have h10 := h9.step (.move 1 _ (.wait .remove rfl))
  have h11 := h10.step (.call 2 (.insert 7) rfl)
  have h12 := h11.step (.move 2 _ (.acquire (.insert 7) (Or.inl rfl) rfl))
  have h13 := h12.step (.move 2 _ (.proceed (.insert 7) rfl rfl))
  have h14 := h13.step (.move 2 _ (.body (.insert 7) rfl))
  have h15 := h14.step (.move 2 _ (.notify (.insert 7) .void .conCv _ rfl rfl
    (.wakes 0 .remove rfl rfl)))
  have h16 := h15.step (.move 2 _ (.release (.insert 7) .void rfl))
  exact ⟨_, h16, rfl, rfl, rfl, rfl,
    ((spooler2_no_lost_wakeup (le_refl 1) h16).1 rfl).1 ⟨1, rfl⟩⟩

/-! ## One condition variable -/

theorem code1_retry (o : Op α) : (code .part3 o).retry = .wait (some .conCv) .conCv := by
  cases o <;> rfl

theorem code1_notify (o : Op α) : (code .part3 o).notify = some .conCv := by
  cases o <;> rfl

theorem spooler1_oneBlocked (h : (spooler .part3 ι mem n).Reachable s) :
    OneBlocked (code .part3) .conCv s :=
  one_blocked code1_retry (fun o _ hd => (Option.some.inj ((code1_notify o).symm.trans hd)).symm) h

/-- **At most one thread is blocked with one condition variable.** -/
theorem spooler1_one_blocked (h : (spooler .part3 ι mem n).Reachable s) {t u : ι} {o o' : Op α}
    (ht : s.phase t = .blocked o) (hu : s.phase u = .blocked o') : t = u := by
  refine count_le_one_iff.mp (spooler1_oneBlocked h).le_one t u ?_ ?_
  · rw [ht]
    exact decide_eq_true (by rw [code1_retry]; rfl)
  · rw [hu]
    exact decide_eq_true (by rw [code1_retry]; rfl)

/-- With one condition variable, a signal after a critical section leaves nobody waiting. -/
theorem spooler1_nobody_waits (h : (spooler .part3 ι mem n).Reachable s)
    {s' : State ι (Op α) (Spool α) (Ret α)} {t : ι} (hm : Move (code .part3) s t s') {o : Op α}
    {r : Ret α} (hp : s.phase t = .notify o r) (u : ι) : (s'.phase u).waiting = false :=
  hm.nobody_waits code1_retry
    (fun o _ hd => (Option.some.inj ((code1_notify o).symm.trans hd)).symm)
    (reachable_wf h) (spooler1_oneBlocked h) hp u

end SystemProgramming.Spooler
