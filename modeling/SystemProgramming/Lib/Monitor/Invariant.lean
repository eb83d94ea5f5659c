import SystemProgramming.Lib.Monitor.Basic

/-!
# What every monitor keeps

* `WF`: the mutex is owned by exactly the thread that stands between lock and unlock, every phase
  is one the procedure's text has, and each thread's bodies in the log are its finished calls
  followed by the one it is about to return from. So a call that returns has run its body exactly
  once (`WF.calls`).
* `Outline`: assertions for a monitor's data. `data` relates the log to the shared value, `go`
  holds where a body is about to run, `stop` where a procedure has decided to wait. It asks for
  what one test, one body and one outside write do, and `Outline.holds` gives the assertions in
  every reachable state: the mutex does the rest.
* `WF.enabled`: a thread that is awake means that some thread has a step. So a monitor in which no
  thread has a step has every thread idle, returned or blocked.
-/

namespace SystemProgramming.Lib.Monitor

variable {ι ο κ σ ρ : Type} [DecidableEq ι] [DecidableEq κ]
variable {code : ο → Proc κ σ ρ} {env : σ → σ → Prop}

/-! ## Phases and wake-ups -/

omit [DecidableEq κ] in
theorem retry_phase_cases (r : Retry κ) (o : ο) :
    (r = .spin ∧ r.phase (ρ := ρ) o = .retry o) ∨
      (∃ c d, r = .wait (some c) d ∧ r.phase (ρ := ρ) o = .passOn o) ∨
      ∃ d, r = .wait none d ∧ r.phase (ρ := ρ) o = .wait o := by
  match r with
  | .spin => exact Or.inl ⟨rfl, rfl⟩
  | .wait (some c) d => exact Or.inr (Or.inl ⟨c, d, rfl, rfl⟩)
  | .wait none d => exact Or.inr (Or.inr ⟨d, rfl, rfl⟩)

omit [DecidableEq κ] in
@[simp] theorem retry_phase_holds (r : Retry κ) (o : ο) : (r.phase (ρ := ρ) o).holds = true := by
  rcases retry_phase_cases (ρ := ρ) r o with ⟨-, h⟩ | ⟨c, d, -, h⟩ | ⟨d, -, h⟩ <;> rw [h] <;> rfl

omit [DecidableEq κ] in
@[simp] theorem after_holds (p : Proc κ σ ρ) (o : ο) (r : ρ) : (p.after o r).holds = true := by
  unfold Proc.after
  split <;> rfl

theorem wake_cases (code : ο → Proc κ σ ρ) (c : κ) (p : Phase ο ρ) :
    (∃ o, p = .blocked o ∧ (code o).retry.on = some c ∧ wake code c p = .woken o) ∨
      (onCv code c p = false ∧ wake code c p = p) := by
  cases p with
  | blocked o =>
    by_cases h : (code o).retry.on = some c
    · exact Or.inl ⟨o, rfl, h, by simp [wake, h]⟩
    · exact Or.inr ⟨by simp [onCv, h], by simp [wake, h]⟩
  | _ => exact Or.inr ⟨rfl, rfl⟩

/-- A wake-up turns a blocked phase into a woken one and leaves every other phase. -/
theorem wake_ne {c : κ} {p q : Phase ο ρ} (hq : wake code c p = q)
    (hne : ∀ o, q ≠ .woken o) : p = q := by
  rcases wake_cases code c p with ⟨o, -, -, h⟩ | ⟨-, h⟩
  · exact absurd (hq.symm.trans h) (hne o)
  · exact h.symm.trans hq

/-- A signal changes phases only, and a phase only from blocked to woken. -/
theorem Signal.spec {c : κ} {s s₁ : State ι ο σ ρ} (h : Signal code c s s₁) :
    s₁.owner = s.owner ∧ s₁.shared = s.shared ∧ s₁.log = s.log ∧ s₁.returns = s.returns ∧
      ∀ t, s₁.phase t = s.phase t ∨ ∃ o, s.phase t = .blocked o ∧ s₁.phase t = .woken o := by
  cases h with
  | wakes u o hu hc =>
    refine ⟨rfl, rfl, rfl, rfl, ?_⟩
    intro t
    by_cases htu : t = u
    · subst htu
      exact Or.inr ⟨o, hu, goto_phase_self ..⟩
    · exact Or.inl (goto_phase_of_ne s _ htu)
  | lost hn => exact ⟨rfl, rfl, rfl, rfl, fun t => Or.inl rfl⟩

/-! ## What a move changes -/

omit [DecidableEq ι] [DecidableEq κ] in
theorem op_eq_none_iff {p : Phase ο ρ} : p.op = none ↔ p = .idle := by
  cases p <;> simp [Phase.op]

omit [DecidableEq ι] [DecidableEq κ] in
theorem op_retry_phase (r : Retry κ) (o : ο) :
    (r.phase (ρ := ρ) o).op = some o ∧ (r.phase (ρ := ρ) o).result = none := by
  rcases retry_phase_cases (ρ := ρ) r o with ⟨-, h⟩ | ⟨c, d, -, h⟩ | ⟨d, -, h⟩ <;> rw [h] <;>
    exact ⟨rfl, rfl⟩

omit [DecidableEq ι] [DecidableEq κ] in
theorem op_after (p : Proc κ σ ρ) (o : ο) (r : ρ) :
    (p.after o r).op = some o ∧ (p.after o r).result = none := by
  unfold Proc.after
  split <;> exact ⟨rfl, rfl⟩

omit [DecidableEq κ] in
/-- A change of one thread's phase, read through `f`. -/
theorem phase_goto {φ : Type} {f : Phase ο ρ → φ} {s : State ι ο σ ρ} {t : ι} {p : Phase ο ρ}
    (h : f p = f (s.phase t)) (u : ι) : f ((s.goto t p).phase u) = f (s.phase u) := by
  rw [goto_phase]
  split_ifs with hu
  · rw [h, hu]
  · rfl

theorem Signal.op {c : κ} {s s₁ : State ι ο σ ρ} (h : Signal code c s s₁) (u : ι) :
    (s₁.phase u).op = (s.phase u).op ∧ (s₁.phase u).result = (s.phase u).result := by
  rcases h.spec.2.2.2.2 u with h | ⟨o, h1, h2⟩
  · rw [h]; exact ⟨rfl, rfl⟩
  · rw [h1, h2]; exact ⟨rfl, rfl⟩

omit [DecidableEq ι] in
theorem wakeAll_op (c : κ) (s : State ι ο σ ρ) (u : ι) :
    ((s.wakeAll code c).phase u).op = (s.phase u).op ∧
      ((s.wakeAll code c).phase u).result = (s.phase u).result := by
  show (wake code c (s.phase u)).op = _ ∧ (wake code c (s.phase u)).result = _
  rcases wake_cases code c (s.phase u) with ⟨o, h1, -, h2⟩ | ⟨-, h2⟩
  · rw [h2, h1]; exact ⟨rfl, rfl⟩
  · rw [h2]; exact ⟨rfl, rfl⟩

/-- A signal leaves the thread that gives it where it stands. -/
theorem Signal.giver {c : κ} {s s₁ : State ι ο σ ρ} (h : Signal code c s s₁) {t : ι}
    (ht : ∀ o, s.phase t ≠ .blocked o) : s₁.phase t = s.phase t := by
  rcases h.spec.2.2.2.2 t with h | ⟨o, h1, -⟩
  · exact h
  · exact absurd h1 (ht o)

/-- **A move keeps every thread in its call.** -/
theorem Move.op {s s' : State ι ο σ ρ} {t : ι} (h : Move code s t s') (u : ι) :
    (s'.phase u).op = (s.phase u).op := by
  cases h with
  | acquire o hp hf =>
    exact phase_goto (f := Phase.op) (by rcases hp with hp | hp <;> rw [hp] <;> rfl) u
  | proceed o hp hw => exact phase_goto (f := Phase.op) (by rw [hp]; rfl) u
  | stop o hp hw => exact phase_goto (f := Phase.op) (by rw [hp, (op_retry_phase _ o).1]; rfl) u
  | passOn o c d s₁ hp hr hs =>
    rw [phase_goto (f := Phase.op) (by rw [hs.giver (by simp [hp]), hp]; rfl) u]
    exact (hs.op u).1
  | wait o hp => exact phase_goto (f := Phase.op) (by rw [hp]; rfl) u
  | spin o hp => exact phase_goto (f := Phase.op) (by rw [hp]; rfl) u
  | body o hp => exact phase_goto (f := Phase.op) (by rw [hp, (op_after _ o _).1]; rfl) u
  | notify o r c s₁ hp hn hs =>
    rw [phase_goto (f := Phase.op) (by rw [hs.giver (by simp [hp]), hp]; rfl) u]
    exact (hs.op u).1
  | release o r hp => exact phase_goto (f := Phase.op) (by rw [hp]; rfl) u

/-- **A move that is not a body leaves the shared value and the log.** -/
theorem Move.data {s s' : State ι ο σ ρ} {t : ι} (h : Move code s t s') :
    (s'.shared = s.shared ∧ s'.log = s.log) ∨
      ∃ o, s.phase t = .body o ∧ s'.shared = ((code o).body s.shared).2 ∧
        s'.log = s.log ++ [(t, o, ((code o).body s.shared).1)] := by
  cases h with
  | body o hp => exact Or.inr ⟨o, hp, rfl, rfl⟩
  | passOn o c d s₁ hp hr hs => exact Or.inl ⟨hs.spec.2.1, hs.spec.2.2.1⟩
  | notify o r c s₁ hp hn hs => exact Or.inl ⟨hs.spec.2.1, hs.spec.2.2.1⟩
  | _ => exact Or.inl ⟨rfl, rfl⟩

/-- **A move that is not a release leaves the finished calls and the results to be taken.** -/
theorem Move.finish {s s' : State ι ο σ ρ} {t : ι} (h : Move code s t s') :
    (s'.returns = s.returns ∧ ∀ u, (s'.phase u).result = (s.phase u).result) ∨
      ∃ o r, s.phase t = .release o r ∧
        s'.returns = Function.update s.returns t (s.returns t ++ [(o, r)]) ∧
        s'.phase = Function.update s.phase t (.returned o r) := by
  cases h with
  | acquire o hp hf =>
    refine Or.inl ⟨rfl, phase_goto (f := Phase.result) ?_⟩
    rcases hp with hp | hp <;> rw [hp] <;> rfl
  | proceed o hp hw => exact Or.inl ⟨rfl, phase_goto (f := Phase.result) (by rw [hp]; rfl)⟩
  | stop o hp hw =>
    refine Or.inl ⟨rfl, phase_goto (f := Phase.result) ?_⟩
    rw [hp, (op_retry_phase _ o).2]
    rfl
  | passOn o c d s₁ hp hr hs =>
    refine Or.inl ⟨hs.spec.2.2.2.1, ?_⟩
    intro u
    rw [phase_goto (f := Phase.result) (by rw [hs.giver (by simp [hp]), hp]; rfl) u]
    exact (hs.op u).2
  | wait o hp => exact Or.inl ⟨rfl, phase_goto (f := Phase.result) (by rw [hp]; rfl)⟩
  | spin o hp => exact Or.inl ⟨rfl, phase_goto (f := Phase.result) (by rw [hp]; rfl)⟩
  | body o hp =>
    refine Or.inl ⟨rfl, phase_goto (f := Phase.result) ?_⟩
    rw [hp, (op_after _ o _).2]
    rfl
  | notify o r c s₁ hp hn hs =>
    refine Or.inl ⟨hs.spec.2.2.2.1, ?_⟩
    intro u
    rw [phase_goto (f := Phase.result) (by rw [hs.giver (by simp [hp]), hp]; rfl) u]
    exact (hs.op u).2
  | release o r hp => exact Or.inr ⟨o, r, hp, rfl, rfl⟩

/-- **Whoever starts to wait has tested and found that it has to.** -/
theorem Move.waiting {s s' : State ι ο σ ρ} {t u : ι} (h : Move code s t s')
    (hu : (s'.phase u).waiting = true) :
    (s.phase u).waiting = true ∨
      ∃ o, u = t ∧ s.phase t = .test o ∧ (code o).waits s.shared = true := by
  have hsig : ∀ {c : κ} {s₁ : State ι ο σ ρ}, Signal code c s s₁ →
      (s₁.phase u).waiting = true → (s.phase u).waiting = true := fun hs hw => by
    rcases hs.spec.2.2.2.2 u with he | ⟨o, h1, -⟩
    · rwa [he] at hw
    · rw [h1]; rfl
  have hgoto : ∀ {s₁ : State ι ο σ ρ} {p : Phase ο ρ}, ((s₁.goto t p).phase u).waiting = true →
      (u = t ∧ p.waiting = true) ∨ (s₁.phase u).waiting = true := fun hw => by
    rw [goto_phase] at hw
    split_ifs at hw with hut
    · exact Or.inl ⟨hut, hw⟩
    · exact Or.inr hw
  cases h with
  | stop o hp hw =>
    rcases hgoto hu with ⟨hut, -⟩ | h
    · exact Or.inr ⟨o, hut, hp, hw⟩
    · exact Or.inl h
  | passOn o c d s₁ hp hr hs =>
    rcases hgoto hu with ⟨hut, -⟩ | h
    · left; rw [hut, hp]; rfl
    · exact Or.inl (hsig hs h)
  | wait o hp =>
    rcases hgoto hu with ⟨hut, -⟩ | h
    · left; rw [hut, hp]; rfl
    · exact Or.inl h
  | body o hp =>
    rcases hgoto hu with ⟨-, h⟩ | h
    · unfold Proc.after at h
      split at h <;> exact absurd h (by simp [Phase.waiting])
    · exact Or.inl h
  | notify o r c s₁ hp hn hs =>
    rcases hgoto hu with ⟨-, h⟩ | h
    · exact absurd h (by simp [Phase.waiting])
    · exact Or.inl (hsig hs h)
  | _ =>
    rcases hgoto hu with ⟨-, h⟩ | h
    · exact absurd h (by simp [Phase.waiting])
    · exact Or.inl h

/-- **Where every procedure signals, only a signal after a body finishes a call.** -/
theorem Move.finished {s s' : State ι ο σ ρ} {t : ι} (h : Move code s t s')
    (hcode : ∀ o, (code o).notify ≠ none) (hn : ∀ o r, s.phase t ≠ .notify o r) (u : ι) :
    (s'.phase u).finished = (s.phase u).finished := by
  cases h with
  | acquire o hp hf => exact phase_goto (by rcases hp with hp | hp <;> rw [hp] <;> rfl) u
  | proceed o hp hw => exact phase_goto (by rw [hp]; rfl) u
  | stop o hp hw =>
    refine phase_goto ?_ u
    rcases retry_phase_cases (ρ := ρ) (code o).retry o with ⟨-, h⟩ | ⟨c, d, -, h⟩ | ⟨d, -, h⟩ <;>
      rw [h, hp] <;> rfl
  | passOn o c d s₁ hp hr hs =>
    rw [phase_goto (f := Phase.finished) (by rw [hs.giver (by simp [hp]), hp]; rfl) u]
    rcases hs.spec.2.2.2.2 u with h | ⟨o, h1, h2⟩
    · rw [h]
    · rw [h1, h2]; rfl
  | wait o hp => exact phase_goto (by rw [hp]; rfl) u
  | spin o hp => exact phase_goto (by rw [hp]; rfl) u
  | body o hp =>
    refine phase_goto ?_ u
    rw [hp]
    unfold Proc.after
    split
    · rfl
    · exact absurd ‹_› (hcode o)
  | notify o r c s₁ hp hn' hs => exact absurd hp (hn o r)
  | release o r hp => exact phase_goto (by rw [hp]; rfl) u

/-! ## Well-formed states -/

/-- The mutex is owned by the one thread that stands inside. -/
def Mutex (s : State ι ο σ ρ) : Prop :=
  ∀ t, s.owner = some t ↔ (s.phase t).holds = true

/-- The procedure's text has this phase. -/
def Coherent (code : ο → Proc κ σ ρ) : Phase ο ρ → Prop
  | .passOn o => ∃ c d, (code o).retry = .wait (some c) d
  | .wait o | .blocked o | .woken o => ∃ c d, (code o).retry = .wait c d
  | .notify o _ => ∃ c, (code o).notify = some c
  | _ => True

/-- The body that has run in a call that has not returned yet. -/
def pending : Phase ο ρ → List (ο × ρ)
  | .notify o r | .release o r => [(o, r)]
  | _ => []

/-- **The invariant of every monitor.** -/
structure WF (code : ο → Proc κ σ ρ) (s : State ι ο σ ρ) : Prop where
  mutex : Mutex s
  coherent : ∀ t, Coherent code (s.phase t)
  calls : ∀ t, callsOf t s.log = s.returns t ++ pending (s.phase t)

omit [DecidableEq κ] in
/-- A finished call is in the log. -/
theorem WF.mem_log_of_returns {s : State ι ο σ ρ} (h : WF code s) {t : ι} {e : ο × ρ}
    (hr : e ∈ s.returns t) : (t, e) ∈ s.log := by
  refine mem_log_of_callsOf ?_
  rw [h.calls]
  exact List.mem_append_left _ hr

theorem mutex_goto {s : State ι ο σ ρ} (h : Mutex s) {t : ι} {p : Phase ο ρ}
    (hp : p.holds = (s.phase t).holds) : Mutex (s.goto t p) := by
  intro u
  rw [goto_phase, goto_owner, h u]
  split_ifs with hu
  · rw [hp, hu]
  · exact Iff.rfl

theorem mutex_take {s : State ι ο σ ρ} (h : Mutex s) {t : ι} {p : Phase ο ρ}
    (hf : s.owner = none) (hp : p.holds = true) :
    Mutex { s.goto t p with owner := some t } := by
  intro u
  have hu : (s.phase u).holds = true ↔ False := by rw [← h u, hf]; simp
  show some t = some u ↔ ((s.goto t p).phase u).holds = true
  rw [goto_phase]
  split_ifs with htu
  · simp [htu, hp]
  · rw [hu]
    simp [Ne.symm htu]

/-- The thread that gives the mutex back was the only one inside. -/
theorem mutex_drop {s : State ι ο σ ρ} (h : Mutex s) {t : ι} {p : Phase ο ρ}
    (ht : (s.phase t).holds = true) (hp : p.holds = false) :
    Mutex { s.goto t p with owner := none } := by
  intro u
  show none = some u ↔ ((s.goto t p).phase u).holds = true
  rw [goto_phase]
  split_ifs with hu
  · simp [hp]
  · have hne : ¬ (s.phase u).holds = true := fun hh => by
      have := (h u).mpr hh
      rw [(h t).mpr ht] at this
      exact hu (Option.some.inj this).symm
    simp [hne]

omit [DecidableEq ι] in
theorem Mutex.unique {s : State ι ο σ ρ} (h : Mutex s) {t u : ι}
    (ht : (s.phase t).holds = true) (hu : (s.phase u).holds = true) : t = u := by
  have h1 := (h t).mpr ht
  rw [(h u).mpr hu] at h1
  exact (Option.some.inj h1).symm

omit [DecidableEq ι] in
/-- With the mutex free nobody is inside. -/
theorem Mutex.out_of_free {s : State ι ο σ ρ} (h : Mutex s) (hf : s.owner = none) (t : ι) :
    (s.phase t).holds = false := by
  rw [← Bool.not_eq_true, ← h t, hf]
  simp

omit [DecidableEq ι] in
theorem mutex_of_phases {s s₁ : State ι ο σ ρ} (h : Mutex s) (ho : s₁.owner = s.owner)
    (hp : ∀ t, (s₁.phase t).holds = (s.phase t).holds) : Mutex s₁ := by
  intro t
  rw [ho, hp]
  exact h t

theorem Signal.wf {c : κ} {s s₁ : State ι ο σ ρ} (h : Signal code c s s₁) (hwf : WF code s) :
    WF code s₁ := by
  obtain ⟨ho, -, hl, hr, hp⟩ := h.spec
  refine ⟨mutex_of_phases hwf.mutex ho fun t => ?_, ?_, ?_⟩
  · rcases hp t with h | ⟨o, h1, h2⟩
    · rw [h]
    · rw [h1, h2]; rfl
  · intro t
    have hc := hwf.coherent t
    rcases hp t with h | ⟨o, h1, h2⟩
    · rw [h]; exact hc
    · rw [h1] at hc
      rw [h2]; exact hc
  · intro t
    rw [hl, hr, hwf.calls t]
    rcases hp t with h | ⟨o, h1, h2⟩
    · rw [h]
    · rw [h1, h2]; rfl

/-- A move of one thread that runs no body and finishes no call keeps the call histories. -/
theorem calls_goto {s : State ι ο σ ρ}
    (h : ∀ u, callsOf u s.log = s.returns u ++ pending (s.phase u)) {t : ι} {p : Phase ο ρ}
    (hp : pending p = pending (s.phase t)) (u : ι) :
    callsOf u s.log = s.returns u ++ pending ((s.goto t p).phase u) := by
  rw [h u, goto_phase]
  split_ifs with hu
  · rw [hp, hu]
  · rfl

omit [DecidableEq κ] in
theorem coherent_goto {s : State ι ο σ ρ} (h : ∀ u, Coherent code (s.phase u)) {t : ι}
    {p : Phase ο ρ} (hp : Coherent code p) (u : ι) : Coherent code ((s.goto t p).phase u) := by
  rw [goto_phase]
  split_ifs
  · exact hp
  · exact h u

omit [DecidableEq ι] [DecidableEq κ] in
theorem pending_retry_phase (r : Retry κ) (o : ο) : pending (r.phase (ρ := ρ) o) = [] := by
  rcases retry_phase_cases (ρ := ρ) r o with ⟨-, h⟩ | ⟨c, d, -, h⟩ | ⟨d, -, h⟩ <;> rw [h] <;> rfl

omit [DecidableEq ι] [DecidableEq κ] in
theorem pending_after (p : Proc κ σ ρ) (o : ο) (r : ρ) : pending (p.after o r) = [(o, r)] := by
  unfold Proc.after
  split <;> rfl

theorem move_wf {s s' : State ι ο σ ρ} {t : ι} (h : WF code s) (hm : Move code s t s') :
    WF code s' := by
  obtain ⟨hmx, hco, hca⟩ := h
  cases hm with
  | acquire o hp hf =>
    refine ⟨mutex_take hmx hf rfl, coherent_goto hco trivial, calls_goto hca ?_⟩
    rcases hp with hp | hp <;> rw [hp] <;> rfl
  | proceed o hp hw =>
    exact ⟨mutex_goto hmx (by rw [hp]; rfl), coherent_goto hco trivial,
      calls_goto hca (by rw [hp]; rfl)⟩
  | stop o hp hw =>
    refine ⟨mutex_goto hmx (by rw [hp, retry_phase_holds]; rfl), coherent_goto hco ?_,
      calls_goto hca (by rw [hp, pending_retry_phase]; rfl)⟩
    rcases retry_phase_cases (ρ := ρ) (code o).retry o with ⟨hr, h⟩ | ⟨c, d, hr, h⟩ | ⟨d, hr, h⟩
    · rw [h]; trivial
    · rw [h]; exact ⟨c, d, hr⟩
    · rw [h]; exact ⟨none, d, hr⟩
  | passOn o c d s₁ hp hr hs =>
    have hwf := hs.wf ⟨hmx, hco, hca⟩
    have hpt : s₁.phase t = .passOn o := (hs.giver (by simp [hp])).trans hp
    exact ⟨mutex_goto hwf.mutex (by rw [hpt]; rfl), coherent_goto hwf.coherent ⟨some c, d, hr⟩,
      calls_goto hwf.calls (by rw [hpt]; rfl)⟩
  | wait o hp =>
    have hc := hco t
    rw [hp] at hc
    exact ⟨mutex_drop hmx (by rw [hp]; rfl) rfl, coherent_goto hco hc,
      calls_goto hca (by rw [hp]; rfl)⟩
  | spin o hp =>
    exact ⟨mutex_drop hmx (by rw [hp]; rfl) rfl, coherent_goto hco trivial,
      calls_goto hca (by rw [hp]; rfl)⟩
  | body o hp =>
    refine ⟨mutex_goto hmx (by rw [hp, after_holds]; rfl), coherent_goto hco ?_, ?_⟩
    · unfold Proc.after
      split
      · rename_i c hn
        exact ⟨c, hn⟩
      · trivial
    · intro u
      show callsOf u (s.log ++ [(t, o, _)]) = s.returns u ++ pending ((s.goto t _).phase u)
      rw [callsOf_snoc, hca u, goto_phase]
      by_cases hu : u = t
      · subst hu
        rw [if_pos rfl, if_pos rfl, hp, pending_after]
        simp [pending]
      · rw [if_neg hu, if_neg (Ne.symm hu), List.append_nil]
  | notify o r c s₁ hp hn hs =>
    have hwf := hs.wf ⟨hmx, hco, hca⟩
    have hpt : s₁.phase t = .notify o r := (hs.giver (by simp [hp])).trans hp
    exact ⟨mutex_goto hwf.mutex (by rw [hpt]; rfl), coherent_goto hwf.coherent trivial,
      calls_goto hwf.calls (by rw [hpt]; rfl)⟩
  | release o r hp =>
    refine ⟨mutex_drop hmx (by rw [hp]; rfl) rfl, coherent_goto hco trivial, ?_⟩
    intro u
    show callsOf u s.log = Function.update s.returns t (s.returns t ++ [(o, r)]) u ++
      pending ((s.goto t _).phase u)
    rw [hca u, goto_phase, Function.update_apply]
    by_cases hu : u = t
    · subst hu
      simp [hp, pending]
    · simp [hu]

theorem step_wf {s s' : State ι ο σ ρ} (h : WF code s) (hs : Step code env s s') :
    WF code s' := by
  cases hs with
  | move t _ hm => exact move_wf h hm
  | spurious t o hp =>
    have hc := h.coherent t
    rw [hp] at hc
    exact ⟨mutex_goto h.mutex (by rw [hp]; rfl), coherent_goto h.coherent hc,
      calls_goto h.calls (by rw [hp]; rfl)⟩
  | call t o hp =>
    exact ⟨mutex_goto h.mutex (by rw [hp]; rfl), coherent_goto h.coherent trivial,
      calls_goto h.calls (by rw [hp]; rfl)⟩
  | collect t o r hp =>
    exact ⟨mutex_goto h.mutex (by rw [hp]; rfl), coherent_goto h.coherent trivial,
      calls_goto h.calls (by rw [hp]; rfl)⟩
  | write v hv => exact ⟨h.mutex, h.coherent, h.calls⟩
  | broadcast c =>
    refine ⟨mutex_of_phases h.mutex rfl fun t => ?_, ?_, ?_⟩
    · rcases wake_cases code c (s.phase t) with ⟨o, h1, -, h2⟩ | ⟨-, h2⟩
      · show (wake code c (s.phase t)).holds = _
        rw [h2, h1]; rfl
      · show (wake code c (s.phase t)).holds = _
        rw [h2]
    · intro t
      have hc := h.coherent t
      show Coherent code (wake code c (s.phase t))
      rcases wake_cases code c (s.phase t) with ⟨o, h1, -, h2⟩ | ⟨-, h2⟩
      · rw [h1] at hc
        rw [h2]; exact hc
      · rw [h2]; exact hc
    · intro t
      show callsOf t s.log = s.returns t ++ pending (wake code c (s.phase t))
      rw [h.calls t]
      rcases wake_cases code c (s.phase t) with ⟨o, h1, -, h2⟩ | ⟨-, h2⟩
      · rw [h2, h1]; rfl
      · rw [h2]

/-- **Every reachable state is well-formed.** -/
theorem reachable_wf {v : σ} {s : State ι ο σ ρ} (h : (system code env v).Reachable s) :
    WF code s := by
  refine System.invariant (I := WF code) (fun s hs => ?_) (fun _ _ _ hwf hs => step_wf hwf hs) h
  subst hs
  exact ⟨fun t => by simp [State.start, Phase.holds], fun _ => trivial, fun _ => rfl⟩

/-! ## Assertions about the data -/

/-- **Assertions of a monitor.** `data` relates the log to the shared value, `go o` is what a
body of `o` may assume, `stop o` what a thread about to wait in `o` may. -/
structure Outline (code : ο → Proc κ σ ρ) (env : σ → σ → Prop) (v : σ)
    (data : List (ι × ο × ρ) → σ → Prop) (go stop : ο → σ → Prop) : Prop where
  init : data [] v
  test_go : ∀ h o x, data h x → (code o).waits x = false → go o x
  test_stop : ∀ h o x, data h x → (code o).waits x = true → stop o x
  body : ∀ h t o x, data h x → go o x →
    data (h ++ [(t, o, ((code o).body x).1)]) ((code o).body x).2
  env_data : ∀ h x y, data h x → env x y → data h y
  env_go : ∀ o x y, env x y → go o x → go o y
  env_stop : ∀ o x y, env x y → stop o x → stop o y

/-- The assertions, at a state. -/
structure Holds (data : List (ι × ο × ρ) → σ → Prop) (go stop : ο → σ → Prop)
    (s : State ι ο σ ρ) : Prop where
  data : data s.log s.shared
  go : ∀ t o, s.phase t = .body o → go o s.shared
  stop : ∀ t o, s.phase t = .passOn o ∨ s.phase t = .wait o → stop o s.shared

variable {v : σ} {data : List (ι × ο × ρ) → σ → Prop} {go stop : ο → σ → Prop}

omit [DecidableEq κ] in
/-- A move to a phase that asserts nothing, with the data as they were. -/
theorem holds_goto {s : State ι ο σ ρ} (h : Holds data go stop s) {t : ι} {p : Phase ο ρ}
    (hb : ∀ o, p = .body o → go o s.shared)
    (hw : ∀ o, p = .passOn o ∨ p = .wait o → stop o s.shared) :
    Holds data go stop (s.goto t p) := by
  refine ⟨h.data, ?_, ?_⟩
  · intro u o hu
    rw [goto_phase] at hu
    split_ifs at hu
    · exact hb o hu
    · exact h.go u o hu
  · intro u o hu
    rw [goto_phase] at hu
    split_ifs at hu
    · exact hw o hu
    · exact h.stop u o hu

omit [DecidableEq ι] [DecidableEq κ] in
/-- The owner of the mutex does not occur in the assertions. -/
theorem holds_owner {s : State ι ο σ ρ} (h : Holds data go stop s) (w : Option ι) :
    Holds data go stop { s with owner := w } :=
  ⟨h.data, h.go, h.stop⟩

omit [DecidableEq ι] [DecidableEq κ] in
/-- Wake-ups keep the assertions: a woken phase asserts nothing. -/
theorem holds_of_wakes {s s₁ : State ι ο σ ρ} (h : Holds data go stop s)
    (hx : s₁.shared = s.shared) (hl : s₁.log = s.log)
    (hp : ∀ t, s₁.phase t = s.phase t ∨ ∃ o, s₁.phase t = .woken o) : Holds data go stop s₁ := by
  refine ⟨by rw [hx, hl]; exact h.data, ?_, ?_⟩
  · intro t o ht
    rw [hx]
    rcases hp t with he | ⟨o', he⟩
    · exact h.go t o (he ▸ ht)
    · rw [he] at ht; exact absurd ht (by simp)
  · intro t o ht
    rw [hx]
    rcases hp t with he | ⟨o', he⟩
    · exact h.stop t o (he ▸ ht)
    · rw [he] at ht; exact absurd ht (by simp)

theorem Signal.holds {c : κ} {s s₁ : State ι ο σ ρ} (hs : Signal code c s s₁)
    (h : Holds data go stop s) : Holds data go stop s₁ := by
  obtain ⟨-, hx, hl, -, hp⟩ := hs.spec
  exact holds_of_wakes h hx hl fun t => (hp t).imp_right fun ⟨o, _, he⟩ => ⟨o, he⟩

theorem move_holds (A : Outline code env v data go stop) {s s' : State ι ο σ ρ} {t : ι}
    (hwf : WF code s) (h : Holds data go stop s) (hm : Move code s t s') :
    Holds data go stop s' := by
  cases hm with
  | acquire o hp hf => exact holds_owner (holds_goto h (by simp) (by simp)) _
  | proceed o hp hw =>
    refine holds_goto h (fun o' ho => ?_) (by simp)
    obtain rfl := Phase.body.inj ho
    exact A.test_go _ _ _ h.data hw
  | stop o hp hw =>
    refine holds_goto h (fun o' ho => ?_) fun o' ho => ?_
    · rcases retry_phase_cases (ρ := ρ) (code o).retry o with
        ⟨-, he⟩ | ⟨c, d, -, he⟩ | ⟨d, -, he⟩ <;> rw [he] at ho <;> exact absurd ho (by simp)
    · have : o' = o := by
        rcases retry_phase_cases (ρ := ρ) (code o).retry o with
          ⟨-, he⟩ | ⟨c, d, -, he⟩ | ⟨d, -, he⟩ <;> rw [he] at ho <;> simp at ho <;> exact ho.symm
      rw [this]
      exact A.test_stop _ _ _ h.data hw
  | passOn o c d s₁ hp hr hs =>
    refine holds_goto (hs.holds h) (by simp) fun o' ho => ?_
    obtain rfl : o = o' := by simpa using ho
    rw [hs.spec.2.1]
    exact h.stop t o (Or.inl hp)
  | wait o hp => exact holds_owner (holds_goto h (by simp) (by simp)) _
  | spin o hp => exact holds_owner (holds_goto h (by simp) (by simp)) _
  | body o hp =>
    -- the other threads are outside the mutex, where nothing is asserted
    have hout : ∀ u, u ≠ t → (s.phase u).holds ≠ true := fun u hu hh =>
      hu (hwf.mutex.unique hh (by rw [hp]; rfl))
    refine ⟨A.body _ _ _ _ h.data (h.go t o hp), ?_, ?_⟩
    · intro u o' hu
      by_cases hut : u = t
      · subst hut
        have hu' : (code o).after o ((code o).body s.shared).1 = .body o' := by
          simpa [State.goto] using hu
        have := after_holds (code o) o ((code o).body s.shared).1
        unfold Proc.after at hu'
        split at hu' <;> exact absurd hu' (by simp)
      · have hu' : s.phase u = .body o' := by simpa [State.goto, hut] using hu
        exact absurd (by rw [hu']; rfl) (hout u hut)
    · intro u o' hu
      by_cases hut : u = t
      · subst hut
        have hu' : (code o).after o ((code o).body s.shared).1 = .passOn o' ∨
            (code o).after o ((code o).body s.shared).1 = .wait o' := by
          simpa [State.goto] using hu
        unfold Proc.after at hu'
        split at hu' <;> rcases hu' with hu' | hu' <;> exact absurd hu' (by simp)
      · have hu' : s.phase u = .passOn o' ∨ s.phase u = .wait o' := by
          simpa [State.goto, hut] using hu
        rcases hu' with hu' | hu' <;> exact absurd (by rw [hu']; rfl) (hout u hut)
  | notify o r c s₁ hp hn hs => exact holds_goto (hs.holds h) (by simp) (by simp)
  | release o r hp => exact ⟨h.data, (holds_goto h (t := t) (p := .returned o r) (by simp)
      (by simp)).go, (holds_goto h (t := t) (p := .returned o r) (by simp) (by simp)).stop⟩

theorem step_holds (A : Outline code env v data go stop) {s s' : State ι ο σ ρ}
    (hwf : WF code s) (h : Holds data go stop s) (hs : Step code env s s') :
    Holds data go stop s' := by
  cases hs with
  | move t _ hm => exact move_holds A hwf h hm
  | spurious t o hp => exact holds_goto h (by simp) (by simp)
  | call t o hp => exact holds_goto h (by simp) (by simp)
  | collect t o r hp => exact holds_goto h (by simp) (by simp)
  | write x hx =>
    exact ⟨A.env_data _ _ _ h.data hx, fun t o ht => A.env_go _ _ _ hx (h.go t o ht),
      fun t o ht => A.env_stop _ _ _ hx (h.stop t o ht)⟩
  | broadcast c =>
    refine holds_of_wakes h rfl rfl fun t => ?_
    rcases wake_cases code c (s.phase t) with ⟨o, -, -, he⟩ | ⟨-, he⟩
    · exact Or.inr ⟨o, he⟩
    · exact Or.inl he

/-- **The monitor rule.** The assertions hold in every reachable state. -/
theorem Outline.holds (A : Outline code env v data go stop) {s : State ι ο σ ρ}
    (h : (system code env v).Reachable s) : Holds data go stop s := by
  refine System.invariant (I := Holds data go stop) (fun s hs => ?_)
    (fun _ _ hr hi hs => step_holds A (reachable_wf hr) hi hs) h
  subst hs
  exact ⟨A.init, fun t o ht => by simp [State.start] at ht,
    fun t o ht => by simp [State.start] at ht⟩

/-! ## Progress -/

variable [Fintype ι]

omit [DecidableEq ι] in
/-- A signal can always be given. -/
theorem exists_signal [DecidableEq ι] (code : ο → Proc κ σ ρ) (c : κ) (s : State ι ο σ ρ) :
    ∃ s₁, Signal code c s s₁ := by
  by_cases h : ∃ u, onCv code c (s.phase u) = true
  · obtain ⟨u, hu⟩ := h
    cases hp : s.phase u with
    | blocked o =>
      rw [hp] at hu
      exact ⟨_, .wakes u o hp (by simpa [onCv] using hu)⟩
    | _ => rw [hp] at hu; exact absurd hu (by simp [onCv])
  · exact ⟨s, .lost fun u => by simpa using fun hu => h ⟨u, hu⟩⟩

/-- The owner of the mutex has a step. -/
theorem WF.owner_moves {s : State ι ο σ ρ} (h : WF code s) {t : ι}
    (ht : (s.phase t).holds = true) : ∃ s', Move code s t s' := by
  have hc := h.coherent t
  cases hp : s.phase t with
  | test o =>
    cases hw : (code o).waits s.shared with
    | false => exact ⟨_, .proceed o hp hw⟩
    | true => exact ⟨_, .stop o hp hw⟩
  | passOn o =>
    rw [hp] at hc
    obtain ⟨c, d, hr⟩ := hc
    obtain ⟨s₁, hs⟩ := exists_signal code c s
    exact ⟨_, .passOn o c d s₁ hp hr hs⟩
  | wait o => exact ⟨_, .wait o hp⟩
  | retry o => exact ⟨_, .spin o hp⟩
  | body o => exact ⟨_, .body o hp⟩
  | notify o r =>
    rw [hp] at hc
    obtain ⟨c, hn⟩ := hc
    obtain ⟨s₁, hs⟩ := exists_signal code c s
    exact ⟨_, .notify o r c s₁ hp hn hs⟩
  | release o r => exact ⟨_, .release o r hp⟩
  | _ => rw [hp] at ht; exact absurd ht (by simp [Phase.holds])

/-- **Progress.** If a thread is awake, some thread has a step: the owner of the mutex if it has
one, the awake thread itself otherwise. -/
theorem WF.enabled {s : State ι ο σ ρ} (h : WF code s) {t : ι} (ht : (s.phase t).awake = true) :
    ∃ u s', Move code s u s' := by
  cases hf : s.owner with
  | some u => exact ⟨u, h.owner_moves ((h.mutex u).mp hf)⟩
  | none =>
    have hn := h.mutex.out_of_free hf t
    cases hp : s.phase t with
    | lock o => exact ⟨t, _, .acquire o (Or.inl hp) hf⟩
    | woken o => exact ⟨t, _, .acquire o (Or.inr hp) hf⟩
    | idle | blocked | returned => rw [hp] at ht; exact absurd ht (by simp [Phase.awake])
    | _ => rw [hp] at hn; exact absurd hn (by simp [Phase.holds])

end SystemProgramming.Lib.Monitor
