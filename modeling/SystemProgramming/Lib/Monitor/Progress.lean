import SystemProgramming.Lib.Monitor.Wakeup

/-!
# How a monitor gets on

A thread inside the mutex reaches the end of its critical section by its own moves, whatever it
finds there, and a thread outside reaches its body if the mutex is free and it does not have to
wait. `Moves` are runs in which threads only move inside their calls.

* `WF.exists_free`: the mutex can always be given back.
* `exists_body`: a thread that does not have to wait can get to its body.
* `exists_spin`, `exists_exchange`: threads that have to wait can come back to where they were.
* `blocked_stops`: with one condition variable that every procedure signals before it waits and
  after its body, a blocked thread still has to wait, unless a signal is on its way.
-/

namespace SystemProgramming.Lib.Monitor

variable {ι ο κ σ ρ : Type} {code : ο → Proc κ σ ρ} {env : σ → σ → Prop}

/-! ## Out of the mutex -/

/-- How far the owner of the mutex is from giving it back. -/
def Phase.inside : Phase ο ρ → Nat
  | .test _ => 5
  | .body _ | .passOn _ => 4
  | .notify _ _ | .wait _ | .retry _ => 3
  | .release _ _ => 2
  | _ => 0

theorem inside_retry_phase_le (r : Retry κ) (o : ο) : (r.phase (ρ := ρ) o).inside ≤ 4 := by
  rcases retry_phase_cases (ρ := ρ) r o with ⟨-, h⟩ | ⟨c, d, -, h⟩ | ⟨d, -, h⟩ <;> rw [h] <;>
    exact Nat.le_of_ble_eq_true rfl

theorem inside_after_le (p : Proc κ σ ρ) (o : ο) (r : ρ) : (p.after o r).inside ≤ 3 := by
  unfold Proc.after
  split <;> exact Nat.le_of_ble_eq_true rfl

variable [DecidableEq ι] [DecidableEq κ]

/-- A run of moves. -/
def Moves (code : ο → Proc κ σ ρ) : State ι ο σ ρ → State ι ο σ ρ → Prop :=
  Relation.ReflTransGen fun s s' => ∃ t, Move code s t s'

/-- **The owner of the mutex** gives it back, or is nearer to that. -/
theorem Move.inside_lt {s s' : State ι ο σ ρ} {t : ι} (hm : Move code s t s')
    (ht : (s.phase t).holds = true) :
    s'.owner = none ∨ s'.owner = s.owner ∧ (s'.phase t).inside < (s.phase t).inside := by
  have hself : ∀ (s₁ : State ι ο σ ρ) (p : Phase ο ρ), p.inside < (s.phase t).inside →
      ((s₁.goto t p).phase t).inside < (s.phase t).inside := fun s₁ p hp => by
    rwa [goto_phase_self]
  cases hm with
  | acquire o hp hf => rcases hp with hp | hp <;> exact absurd ht (by simp [hp, Phase.holds])
  | proceed o hp hw => exact Or.inr ⟨rfl, hself s _ (by rw [hp]; exact Nat.lt_succ_self 4)⟩
  | stop o hp hw =>
    exact Or.inr ⟨rfl, hself s _ (by
      rw [hp]; exact Nat.lt_succ_of_le (inside_retry_phase_le (code o).retry o))⟩
  | passOn o c d s₁ hp hr hs =>
    exact Or.inr ⟨hs.spec.1, hself s₁ _ (by rw [hp]; exact Nat.lt_succ_self 3)⟩
  | wait o hp => exact Or.inl rfl
  | spin o hp => exact Or.inl rfl
  | body o hp =>
    exact Or.inr ⟨rfl, hself s _ (by
      rw [hp]; exact Nat.lt_succ_of_le (inside_after_le (code o) o _))⟩
  | notify o r c s₁ hp hn hs =>
    exact Or.inr ⟨hs.spec.1, hself s₁ _ (by rw [hp]; exact Nat.lt_succ_self 2)⟩
  | release o r hp => exact Or.inl rfl

variable [Fintype ι]

/-- **The mutex can always be given back.** -/
theorem WF.exists_free {s : State ι ο σ ρ} (h : WF code s) :
    ∃ s', Moves code s s' ∧ s'.owner = none := by
  suffices hn : ∀ n (s : State ι ο σ ρ), WF code s →
      (∀ t, s.owner = some t → (s.phase t).inside < n) →
      ∃ s', Moves code s s' ∧ s'.owner = none from
    hn 6 s h fun t _ => by cases s.phase t <;> simp [Phase.inside]
  intro n
  induction n with
  | zero =>
    intro s _ hlt
    cases ho : s.owner with
    | none => exact ⟨s, .refl, ho⟩
    | some t => exact absurd (hlt t ho) (Nat.not_lt_zero _)
  | succ n ih =>
    intro s h hlt
    cases ho : s.owner with
    | none => exact ⟨s, .refl, ho⟩
    | some t =>
      have ht := (h.mutex t).mp ho
      obtain ⟨s₁, hm⟩ := h.owner_moves ht
      rcases hm.inside_lt ht with hfree | ⟨howner, hless⟩
      · exact ⟨s₁, .single ⟨t, hm⟩, hfree⟩
      · obtain ⟨s', hrun, hfree⟩ := ih s₁ (move_wf h hm) fun u hu => by
          obtain rfl : t = u := Option.some.inj (ho.symm.trans (howner.symm.trans hu))
          exact Nat.lt_of_lt_of_le hless (Nat.le_of_lt_succ (hlt t ho))
        exact ⟨s', .head ⟨t, hm⟩ hrun, hfree⟩

omit [Fintype ι] in
/-- **A thread that does not have to wait** gets to its body. -/
theorem exists_body {s : State ι ο σ ρ} {t : ι} {o : ο}
    (hp : s.phase t = .lock o ∨ s.phase t = .woken o) (hf : s.owner = none)
    (hw : (code o).waits s.shared = false) :
    ∃ s', Moves code s s' ∧ s'.phase t = .body o :=
  ⟨_, .tail (.single ⟨t, .acquire o hp hf⟩) ⟨t, .proceed o (goto_phase_self ..) hw⟩,
    goto_phase_self ..⟩

/-! ## Threads that have to wait -/

omit [Fintype ι] in
/-- A thread that has to wait and spins is back where it was. -/
theorem exists_spin {s : State ι ο σ ρ} {t : ι} {o : ο} (hp : s.phase t = .lock o)
    (hf : s.owner = none) (hw : (code o).waits s.shared = true) (hr : (code o).retry = .spin) :
    ∃ s₁ s', Move code s t s₁ ∧ Moves code s₁ s' ∧ s'.owner = none ∧ s'.shared = s.shared ∧
      s'.phase t = .lock o := by
  have hstop : (code o).retry.phase (ρ := ρ) o = .retry o := by rw [hr]; rfl
  refine ⟨_, _, .acquire o (Or.inl hp) hf, .tail (.single ⟨t, .stop o (goto_phase_self ..) hw⟩)
    ⟨t, .spin o ?_⟩, rfl, rfl, goto_phase_self ..⟩
  rw [goto_phase_self, hstop]

omit [Fintype ι] in
/-- A thread that has to wait gets to its signal. -/
theorem exists_passOn {s : State ι ο σ ρ} {t : ι} {o : ο} {c d : κ}
    (hp : s.phase t = .lock o ∨ s.phase t = .woken o) (hf : s.owner = none)
    (hw : (code o).waits s.shared = true) (hr : (code o).retry = .wait (some c) d) :
    ∃ s₁ s', Move code s t s₁ ∧ Moves code s₁ s' ∧ s'.shared = s.shared ∧
      s'.phase t = .passOn o ∧ ∀ u, u ≠ t → s'.phase u = s.phase u := by
  have hstop : (code o).retry.phase (ρ := ρ) o = .passOn o := by rw [hr]; rfl
  refine ⟨_, _, .acquire o hp hf, .single ⟨t, .stop o (goto_phase_self ..) hw⟩, rfl, ?_,
    fun u hu => ?_⟩
  · rw [goto_phase_self, hstop]
  · rw [goto_phase_of_ne _ _ hu]
    exact goto_phase_of_ne s _ hu

omit [Fintype ι] in
/-- From its signal a thread gets into the wait set. -/
theorem exists_blocked_of_passOn {s s₁ : State ι ο σ ρ} {t : ι} {o : ο} {c d : κ}
    (hp : s.phase t = .passOn o) (hr : (code o).retry = .wait (some c) d)
    (hs : Signal code c s s₁) :
    ∃ s', Moves code s s' ∧ s'.owner = none ∧ s'.shared = s.shared ∧ s'.phase t = .blocked o ∧
      ∀ u, u ≠ t → s'.phase u = s₁.phase u := by
  refine ⟨_, .tail (.single ⟨t, .passOn o c d s₁ hp hr hs⟩) ⟨t, .wait o (goto_phase_self ..)⟩,
    rfl, hs.spec.2.1, goto_phase_self .., fun u hu => ?_⟩
  show ((s₁.goto t (.wait o)).goto t (.blocked o)).phase u = _
  rw [goto_phase_of_ne _ _ hu, goto_phase_of_ne _ _ hu]

/-- **A thread that has to wait** gets into the wait set, and wakes up only who is there. -/
theorem exists_blocked {s : State ι ο σ ρ} {t : ι} {o : ο} {c d : κ} (hp : s.phase t = .lock o)
    (hf : s.owner = none) (hw : (code o).waits s.shared = true)
    (hr : (code o).retry = .wait (some c) d) :
    ∃ s', Moves code s s' ∧ s'.owner = none ∧ s'.shared = s.shared ∧ s'.phase t = .blocked o ∧
      ∀ u, u ≠ t → (∀ o', s.phase u ≠ .blocked o') → s'.phase u = s.phase u := by
  obtain ⟨s₁, s₂, h1, h2, hshared, hpass, hother⟩ := exists_passOn (Or.inl hp) hf hw hr
  obtain ⟨s₃, hs⟩ := exists_signal code c s₂
  obtain ⟨s', h3, hfree, hshared', hblocked, hother'⟩ := exists_blocked_of_passOn hpass hr hs
  refine ⟨s', .trans (.head ⟨t, h1⟩ h2) h3, hfree, hshared'.trans hshared, hblocked,
    fun u hu hb => ?_⟩
  rw [hother' u hu]
  rcases hs.spec.2.2.2.2 u with he | ⟨o', ho', -⟩
  · rw [he, hother u hu]
  · exact absurd ((hother u hu).symm.trans ho') (hb o')

omit [Fintype ι] in
/-- **Two threads that have to wait** change places: the one wakes up the other and waits. -/
theorem exists_exchange {s : State ι ο σ ρ} {t u : ι} {o o' : ο} {c d : κ} (htu : u ≠ t)
    (hp : s.phase t = .lock o ∨ s.phase t = .woken o) (hu : s.phase u = .blocked o')
    (hf : s.owner = none) (hw : (code o).waits s.shared = true)
    (hr : (code o).retry = .wait (some c) d) (hr' : (code o').retry.on = some c) :
    ∃ s₁ s', Move code s t s₁ ∧ Moves code s₁ s' ∧ s'.owner = none ∧ s'.shared = s.shared ∧
      s'.phase t = .blocked o ∧ s'.phase u = .woken o' := by
  obtain ⟨s₁, s₂, h1, h2, hshared, hpass, hother⟩ := exists_passOn hp hf hw hr
  have hs : Signal code c s₂ (s₂.goto u (.woken o')) := .wakes u o' ((hother u htu).trans hu) hr'
  obtain ⟨s', h3, hfree, hshared', hblocked, hother'⟩ := exists_blocked_of_passOn hpass hr hs
  refine ⟨s₁, s', h1, h2.trans h3, hfree, hshared'.trans hshared, hblocked, ?_⟩
  rw [hother' u htu, goto_phase_self]

omit [Fintype ι] in
/-- **A call that does not have to wait** returns, when nobody is in a wait set. -/
theorem exists_returned {s : State ι ο σ ρ} {t : ι} {o : ο} (hp : s.phase t = .lock o)
    (hf : s.owner = none) (hw : (code o).waits s.shared = false)
    (hb : ∀ u o', s.phase u ≠ .blocked o') :
    ∃ s', Moves code s s' ∧ s'.owner = none ∧ s'.shared = ((code o).body s.shared).2 ∧
      s'.phase t = .returned o ((code o).body s.shared).1 ∧
      ∀ u, u ≠ t → s'.phase u = s.phase u := by
  obtain ⟨s₁, h1, hbody, hshared, hother⟩ : ∃ s₁, Moves code s s₁ ∧ s₁.phase t = .body o ∧
      s₁.shared = s.shared ∧ ∀ u, u ≠ t → s₁.phase u = s.phase u := by
    refine ⟨_, .tail (.single ⟨t, .acquire o (Or.inl hp) hf⟩)
      ⟨t, .proceed o (goto_phase_self ..) hw⟩, goto_phase_self .., rfl, fun u hu => ?_⟩
    rw [goto_phase_of_ne _ _ hu]
    exact goto_phase_of_ne s _ hu
  rw [← hshared]
  obtain ⟨s₂, h2, hrelease, hshared', hother'⟩ : ∃ s₂, Moves code s₁ s₂ ∧
      s₂.phase t = .release o ((code o).body s₁.shared).1 ∧
      s₂.shared = ((code o).body s₁.shared).2 ∧ ∀ u, u ≠ t → s₂.phase u = s₁.phase u := by
    obtain ⟨s₂, h2, hphase, hshared', hother'⟩ : ∃ s₂, Move code s₁ t s₂ ∧
        s₂.phase t = (code o).after o ((code o).body s₁.shared).1 ∧
        s₂.shared = ((code o).body s₁.shared).2 ∧ ∀ u, u ≠ t → s₂.phase u = s₁.phase u :=
      ⟨_, .body o hbody, goto_phase_self .., rfl, fun u hu => goto_phase_of_ne s₁ _ hu⟩
    unfold Proc.after at hphase
    cases hn : (code o).notify with
    | none =>
      rw [hn] at hphase
      exact ⟨s₂, .single ⟨t, h2⟩, hphase, hshared', hother'⟩
    | some c =>
      -- the signal finds nobody
      rw [hn] at hphase
      have hlost : Signal code c s₂ s₂ := .lost fun u => by
        by_cases hu : u = t
        · rw [hu, hphase]
          rfl
        · rw [hother' u hu, hother u hu]
          cases hpu : s.phase u with
          | blocked o' => exact absurd hpu (hb u o')
          | _ => rfl
      refine ⟨_, .tail (.single ⟨t, h2⟩) ⟨t, .notify o _ c s₂ hphase hn hlost⟩,
        goto_phase_self .., hshared', fun u hu => ?_⟩
      rw [goto_phase_of_ne _ _ hu, hother' u hu]
  refine ⟨_, .trans h1 (.tail h2 ⟨t, .release o _ hrelease⟩), rfl, hshared', goto_phase_self ..,
    fun u hu => ?_⟩
  rw [← hother u hu, ← hother' u hu]
  exact goto_phase_of_ne s₂ _ hu

/-! ## One condition variable, signalled before every wait and after every body -/

section OneCondition

variable {c : κ} {v : σ} {data : List (ι × ο × ρ) → σ → Prop} {go stop : ο → σ → Prop}

/-- A blocked thread has to wait, or a thread has still to signal. -/
def BlockedStops (stop : ο → σ → Prop) (s : State ι ο σ ρ) : Prop :=
  ∀ t o, s.phase t = .blocked o → stop o s.shared ∨ ∃ u o' r, s.phase u = .notify o' r

omit [DecidableEq κ] [Fintype ι] in
/-- A move to a phase that is not blocked, of a thread that has no signal to give. -/
theorem blockedStops_goto {s : State ι ο σ ρ} (h : BlockedStops stop s) {t : ι} {p : Phase ο ρ}
    (hn : ∀ o r, s.phase t ≠ .notify o r) (hb : ∀ o, p = .blocked o → stop o s.shared) :
    BlockedStops stop (s.goto t p) := by
  intro u o hu
  rw [goto_phase] at hu
  split_ifs at hu with hut
  · exact Or.inl (hb o hu)
  · refine (h u o hu).imp_right fun ⟨w, o', r, hw⟩ => ⟨w, o', r, ?_⟩
    have hwt : w ≠ t := fun he => hn o' r (he ▸ hw)
    exact (goto_phase_of_ne s p hwt).trans hw

omit [DecidableEq κ] [DecidableEq ι] [Fintype ι] in
/-- Wake-ups leave fewer threads blocked and take no signal away. -/
theorem blockedStops_of_wakes {s s₁ : State ι ο σ ρ} (h : BlockedStops stop s)
    (hx : s₁.shared = s.shared)
    (hp : ∀ t, s₁.phase t = s.phase t ∨ ∃ o, s.phase t = .blocked o ∧ s₁.phase t = .woken o) :
    BlockedStops stop s₁ := by
  intro t o ht
  rw [hx]
  rcases hp t with he | ⟨o', -, he⟩
  · refine (h t o (he ▸ ht)).imp_right fun ⟨u, o', r, hu⟩ => ⟨u, o', r, ?_⟩
    rcases hp u with he' | ⟨o'', he', -⟩
    · exact he'.trans hu
    · exact absurd (hu.symm.trans he') (by simp)
  · exact absurd (ht.symm.trans he) (by simp)

/-- **A blocked thread still has to wait**, unless a signal is on its way. -/
theorem blocked_stops (hcode : ∀ o, (code o).retry = .wait (some c) c)
    (hn : ∀ o, (code o).notify = some c) (A : Outline code env v data go stop)
    {s : State ι ο σ ρ} (h : (system code env v).Reachable s) : BlockedStops stop s := by
  refine System.invariant (I := BlockedStops stop) (fun s hs => ?_) (fun s s' hr hi hs => ?_) h
  · obtain rfl : s = .start v := hs
    exact fun t o ht => absurd ht (by simp [State.start])
  have hn' : ∀ o d, (code o).notify = some d → d = c := fun o d hd =>
    Option.some.inj (hd.symm.trans (hn o))
  cases hs with
  | spurious t o hp => exact blockedStops_goto hi (by simp [hp]) (by simp)
  | call t o hp => exact blockedStops_goto hi (by simp [hp]) (by simp)
  | collect t o r hp => exact blockedStops_goto hi (by simp [hp]) (by simp)
  | write x hx => exact fun t o ht => (hi t o ht).imp_left (A.env_stop _ _ _ hx)
  | broadcast d =>
    refine blockedStops_of_wakes hi rfl fun t => ?_
    rcases wake_cases code d (s.phase t) with ⟨o, h1, -, h2⟩ | ⟨-, h2⟩
    · exact Or.inr ⟨o, h1, h2⟩
    · exact Or.inl h2
  | move t _ hm =>
    cases hm with
    | acquire o hp hf =>
      exact blockedStops_goto (p := .test o) hi (by rcases hp with hp | hp <;> simp [hp]) (by simp)
    | proceed o hp hw => exact blockedStops_goto hi (by simp [hp]) (by simp)
    | stop o hp hw => exact blockedStops_goto hi (by simp [hp]) (by simp [hcode o, Retry.phase])
    | passOn o d e s₁ hp hr hs =>
      obtain ⟨-, hx, -, -, hphase⟩ := hs.spec
      exact blockedStops_goto (blockedStops_of_wakes hi hx hphase)
        (by rw [hs.giver (by simp [hp])]; simp [hp]) (by simp)
    | wait o hp =>
      -- whoever blocks has just seen that it has to
      refine blockedStops_goto (p := .blocked o) hi (by simp [hp]) fun o' ho' => ?_
      obtain rfl := Phase.blocked.inj ho'
      exact (A.holds hr).stop t o (Or.inr hp)
    | spin o hp => exact blockedStops_goto (p := .lock o) hi (by simp [hp]) (by simp)
    | body o hp =>
      refine fun u o' _ => Or.inr ⟨t, o, ((code o).body s.shared).1, ?_⟩
      show (s.goto t ((code o).after o _)).phase t = _
      rw [goto_phase_self]
      unfold Proc.after
      rw [hn o]
    | notify o r d s₁ hp hd hs =>
      -- the signal leaves nobody blocked
      obtain rfl := hn' o d hd
      have h0 := count_eq_zero_iff.mp (hs.oneBlocked (one_blocked hcode hn' hr))
      intro u o' hu
      rw [goto_phase] at hu
      split_ifs at hu
      have hu0 := h0 u
      rw [hu] at hu0
      exact absurd hu0 (by simp [onCv, hcode, Retry.on])
    | release o r hp => exact blockedStops_goto (p := .returned o r) hi (by simp [hp]) (by simp)

end OneCondition

end SystemProgramming.Lib.Monitor
