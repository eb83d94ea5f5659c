import SystemProgramming.Lib.Monitor.Invariant

/-!
# No lost wake-up

A condition variable `c` stands for tokens: `T` is how many of them the shared value holds. The
procedures that wait on `c` block only when there is none (`Tokens.block`) and take one
(`Tokens.take`), and every other body makes at most one and signals `c` if it does
(`Tokens.give`).

`Tokens.no_lost_wakeup`: in every reachable state with a thread blocked on `c`, the tokens are at
most as many as the threads that are on their way to take one, plus the bodies that have made one
and have not signalled yet. Newcomers that take a token from a woken thread, extra signals and
spurious wake-ups are covered: a thread on its way counts whichever way it got there.

`one_blocked` is about a monitor whose procedures all share one condition variable and signal it
before they wait on it. There are no tokens then, but a thread that is about to wait has emptied
the wait set, so at most one thread is ever blocked.
-/

namespace SystemProgramming.Lib.Monitor

variable {ι ο κ σ ρ : Type} [DecidableEq ι] [DecidableEq κ] [Fintype ι]
variable (code : ο → Proc κ σ ρ) (c : κ)

/-- A thread in this phase is inside a procedure that waits on `c`, not blocked, and has not run
the body yet. -/
def coming : Phase ο ρ → Bool
  | .lock o | .test o | .passOn o | .wait o | .woken o | .retry o | .body o =>
    decide ((code o).retry.on = some c)
  | _ => false

/-- A thread in this phase has run its body and still has to signal `c`. -/
def owing : Phase ο ρ → Bool
  | .notify o _ => decide ((code o).notify = some c)
  | _ => false

/-- Threads blocked on `c`. -/
def blockedOn (s : State ι ο σ ρ) : Nat := count (onCv code c) s.phase

/-- Threads on their way to a token. -/
def comingTo (s : State ι ο σ ρ) : Nat := count (coming code c) s.phase

/-- Signals of `c` still to be given. -/
def owed (s : State ι ο σ ρ) : Nat := count (owing code c) s.phase

/-- What the tokens of `c` obey. -/
structure Tokens (env : σ → σ → Prop) (data : List (ι × ο × ρ) → σ → Prop)
    (go stop : ο → σ → Prop) (T : σ → Nat) : Prop where
  block : ∀ h o x, data h x → (code o).retry.on = some c → stop o x → T x = 0
  take : ∀ h o x, data h x → (code o).retry.on = some c → go o x → T ((code o).body x).2 ≤ T x - 1
  give : ∀ h o x, data h x → (code o).retry.on ≠ some c → go o x →
    T ((code o).body x).2 ≤ T x + if (code o).notify = some c then 1 else 0
  env : ∀ x y, env x y → T y ≤ T x

/-! ## How the three numbers change -/

theorem blockedOn_goto (s : State ι ο σ ρ) (t : ι) (p : Phase ο ρ) :
    blockedOn code c (s.goto t p) + (if onCv code c (s.phase t) = true then 1 else 0) =
      blockedOn code c s + (if onCv code c p = true then 1 else 0) :=
  count_update _ s.phase t p

theorem comingTo_goto (s : State ι ο σ ρ) (t : ι) (p : Phase ο ρ) :
    comingTo code c (s.goto t p) + (if coming code c (s.phase t) = true then 1 else 0) =
      comingTo code c s + (if coming code c p = true then 1 else 0) :=
  count_update _ s.phase t p

theorem owed_goto (s : State ι ο σ ρ) (t : ι) (p : Phase ο ρ) :
    owed code c (s.goto t p) + (if owing code c (s.phase t) = true then 1 else 0) =
      owed code c s + (if owing code c p = true then 1 else 0) :=
  count_update _ s.phase t p

/-- Waking a blocked thread: on `c` it moves from one number to the other, on another condition
variable nothing changes. -/
theorem wake_one {s : State ι ο σ ρ} {u : ι} {o : ο} (hu : s.phase u = .blocked o) :
    blockedOn code c (s.goto u (.woken o)) + (if (code o).retry.on = some c then 1 else 0) =
        blockedOn code c s ∧
      comingTo code c (s.goto u (.woken o)) =
        comingTo code c s + (if (code o).retry.on = some c then 1 else 0) ∧
      owed code c (s.goto u (.woken o)) = owed code c s := by
  have h1 := blockedOn_goto code c s u (.woken o)
  have h2 := comingTo_goto code c s u (.woken o)
  have h3 := owed_goto code c s u (.woken o)
  rw [hu] at h1 h2 h3
  by_cases hc : (code o).retry.on = some c <;> simp [onCv, coming, owing, hc] at h1 h2 h3 ⊢ <;>
    exact ⟨h1, h2, h3⟩

variable {code c}

/-- **The invariant**: nobody is blocked on `c`, or every token has somebody coming for it or a
signal still to be given. -/
def Covered (code : ο → Proc κ σ ρ) (c : κ) (T : σ → Nat) (s : State ι ο σ ρ) : Prop :=
  blockedOn code c s = 0 ∨ T s.shared ≤ comingTo code c s + owed code c s

variable {T : σ → Nat}

/-- A move of one thread with the shared value as it was, that neither blocks on `c` nor leaves
the two numbers. -/
theorem covered_goto {s : State ι ο σ ρ} (h : Covered code c T s) {t : ι} {p : Phase ο ρ}
    (hb : onCv code c p = false)
    (hc : coming code c (s.phase t) = true → coming code c p = true)
    (ho : owing code c (s.phase t) = true → owing code c p = true) :
    Covered code c T (s.goto t p) := by
  have h1 := blockedOn_goto code c s t p
  have h2 := comingTo_goto code c s t p
  have h3 := owed_goto code c s t p
  rw [hb] at h1
  rcases h with h | h
  · left
    simp only [Bool.false_eq_true, if_false] at h1
    omega
  · right
    show T s.shared ≤ _
    by_cases hc' : coming code c (s.phase t) = true
    · rw [if_pos hc', if_pos (hc hc')] at h2
      by_cases ho' : owing code c (s.phase t) = true
      · rw [if_pos ho', if_pos (ho ho')] at h3
        omega
      · rw [if_neg ho'] at h3
        omega
    · rw [if_neg hc'] at h2
      by_cases ho' : owing code c (s.phase t) = true
      · rw [if_pos ho', if_pos (ho ho')] at h3
        omega
      · rw [if_neg ho'] at h3
        omega

/-- A signal keeps the invariant. If it is on `c`, it also pays for one token. -/
theorem Signal.covered {d : κ} {s s₁ : State ι ο σ ρ} (hs : Signal code d s s₁)
    (h : Covered code c T s) :
    Covered code c T s₁ ∧ (d = c → blockedOn code c s₁ = 0 ∨
      T s₁.shared + 1 ≤ comingTo code c s₁ + owed code c s₁) := by
  cases hs with
  | wakes u o hu hd =>
    obtain ⟨h1, h2, h3⟩ := wake_one code c hu
    unfold Covered at h ⊢
    rw [goto_shared, h2, h3]
    rw [hd] at h1 ⊢
    by_cases hdc : d = c
    · subst hdc
      simp only [if_true] at h1 ⊢
      omega
    · simp only [Option.some.injEq, hdc, if_false] at h1 ⊢
      exact ⟨by omega, fun he => he.elim⟩
  | lost hn =>
    refine ⟨h, ?_⟩
    rintro rfl
    exact Or.inl (count_eq_zero_iff.mpr hn)

theorem coming_retry_phase (o : ο) :
    coming code c ((code o).retry.phase (ρ := ρ) o) = decide ((code o).retry.on = some c) := by
  rcases retry_phase_cases (ρ := ρ) (code o).retry o with ⟨-, h⟩ | ⟨_, d, -, h⟩ | ⟨d, -, h⟩ <;>
    rw [h] <;> rfl

/-! ## One step -/

variable {env : σ → σ → Prop} {data : List (ι × ο × ρ) → σ → Prop} {go stop : ο → σ → Prop}

theorem move_covered (K : Tokens code c env data go stop T) {s s' : State ι ο σ ρ} {t : ι}
    (hh : Holds data go stop s) (h : Covered code c T s) (hm : Move code s t s') :
    Covered code c T s' := by
  cases hm with
  | acquire o hp hf =>
    exact covered_goto h rfl (by rcases hp with hp | hp <;> rw [hp] <;> exact id)
      (by rcases hp with hp | hp <;> rw [hp] <;> exact id)
  | proceed o hp hw => exact covered_goto h rfl (by rw [hp]; exact id) (by rw [hp]; exact id)
  | stop o hp hw =>
    refine covered_goto h ?_ (by rw [hp, coming_retry_phase]; exact id) (by rw [hp]; simp [owing])
    rcases retry_phase_cases (ρ := ρ) (code o).retry o with ⟨-, h⟩ | ⟨_, d, -, h⟩ | ⟨d, -, h⟩ <;>
      rw [h] <;> rfl
  | passOn o d e s₁ hp hr hs =>
    have hpt : s₁.phase t = .passOn o := (hs.giver (by simp [hp])).trans hp
    exact covered_goto (hs.covered h).1 rfl (by rw [hpt]; exact id) (by rw [hpt]; exact id)
  | wait o hp =>
    by_cases hc : (code o).retry.on = some c
    · -- whoever blocks on `c` has seen that there is no token
      right
      show T s.shared ≤ _
      rw [K.block _ _ _ hh.data hc (hh.stop t o (Or.inr hp))]
      exact Nat.zero_le _
    · exact covered_goto h (by simp [onCv, hc]) (by rw [hp]; simp [coming, hc])
        (by rw [hp]; exact id)
  | spin o hp => exact covered_goto h rfl (by rw [hp]; exact id) (by rw [hp]; exact id)
  | body o hp =>
    have hgo := hh.go t o hp
    have h1 := blockedOn_goto code c s t ((code o).after o ((code o).body s.shared).1)
    have h2 := comingTo_goto code c s t ((code o).after o ((code o).body s.shared).1)
    have h3 := owed_goto code c s t ((code o).after o ((code o).body s.shared).1)
    have hb : onCv code c ((code o).after o ((code o).body s.shared).1) = false := by
      unfold Proc.after; split <;> rfl
    have hcm : coming code c ((code o).after o ((code o).body s.shared).1) = false := by
      unfold Proc.after; split <;> rfl
    have how : owing code c ((code o).after o ((code o).body s.shared).1) =
        decide ((code o).notify = some c) := by
      unfold Proc.after
      split
      · rfl
      · rename_i hn
        simp [owing, hn]
    have hcb : coming code c (Phase.body (ρ := ρ) o) = decide ((code o).retry.on = some c) := rfl
    have hob : owing code c (Phase.body (ρ := ρ) o) = false := rfl
    have hbb : onCv code c (Phase.body (ρ := ρ) o) = false := rfl
    rw [hp, hb, hbb] at h1
    rw [hp, hcm, hcb] at h2
    rw [hp, how, hob] at h3
    simp only [Bool.false_eq_true, if_false, decide_eq_true_eq, Nat.add_zero] at h1 h2 h3
    rcases h with h | h
    · exact Or.inl (h1.trans h)
    · right
      show T ((code o).body s.shared).2 ≤ comingTo code c (s.goto t _) + owed code c (s.goto t _)
      by_cases hc : (code o).retry.on = some c
      · have := K.take _ _ _ hh.data hc hgo
        rw [if_pos hc] at h2
        omega
      · have := K.give _ _ _ hh.data hc hgo
        rw [if_neg hc] at h2
        omega
  | notify o r d s₁ hp hn hs =>
    have hpt : s₁.phase t = .notify o r := (hs.giver (by simp [hp])).trans hp
    obtain ⟨hcov, hpaid⟩ := hs.covered h
    by_cases hd : d = c
    · have h1 := blockedOn_goto code c s₁ t (.release o r)
      have h2 := comingTo_goto code c s₁ t (.release o r)
      have h3 := owed_goto code c s₁ t (.release o r)
      rw [hpt] at h1 h2 h3
      simp only [onCv, coming, owing, hn, hd, Bool.false_eq_true, if_false, decide_true, if_true,
        Nat.add_zero] at h1 h2 h3
      rcases hpaid hd with hp' | hp'
      · exact Or.inl (h1.trans hp')
      · right
        show T s₁.shared ≤ _
        omega
    · exact covered_goto hcov rfl (by rw [hpt]; exact id) (by rw [hpt]; simp [owing, hn, hd])
  | release o r hp => exact covered_goto h rfl (by rw [hp]; exact id) (by rw [hp]; exact id)

theorem step_covered (K : Tokens code c env data go stop T) {s s' : State ι ο σ ρ}
    (hh : Holds data go stop s) (h : Covered code c T s) (hs : Step code env s s') :
    Covered code c T s' := by
  cases hs with
  | move t _ hm => exact move_covered K hh h hm
  | spurious t o hp => exact covered_goto h rfl (by rw [hp]; simp [coming]) (by rw [hp]; exact id)
  | call t o hp => exact covered_goto h rfl (by rw [hp]; simp [coming]) (by rw [hp]; exact id)
  | collect t o r hp => exact covered_goto h rfl (by rw [hp]; exact id) (by rw [hp]; exact id)
  | write x hx => exact h.imp_right fun h => (K.env _ _ hx).trans h
  | broadcast d =>
    by_cases hd : d = c
    · subst hd
      refine Or.inl (count_eq_zero_iff.mpr fun t => ?_)
      show onCv code d (wake code d (s.phase t)) = false
      rcases wake_cases code d (s.phase t) with ⟨o, -, -, h2⟩ | ⟨h1, h2⟩
      · rw [h2]; rfl
      · rw [h2]; exact h1
    · have hsame : ∀ t, onCv code c (wake code d (s.phase t)) = onCv code c (s.phase t) ∧
          coming code c (wake code d (s.phase t)) = coming code c (s.phase t) ∧
          owing code c (wake code d (s.phase t)) = owing code c (s.phase t) := fun t => by
        rcases wake_cases code d (s.phase t) with ⟨o, h0, h1, h2⟩ | ⟨-, h2⟩
        · rw [h2, h0]
          simp [onCv, coming, owing, h1, hd]
        · rw [h2]
          exact ⟨rfl, rfl, rfl⟩
      have e1 : blockedOn code c (s.wakeAll code d) = blockedOn code c s :=
        count_congr fun t => (hsame t).1
      have e2 : comingTo code c (s.wakeAll code d) = comingTo code c s :=
        count_congr fun t => (hsame t).2.1
      have e3 : owed code c (s.wakeAll code d) = owed code c s :=
        count_congr fun t => (hsame t).2.2
      unfold Covered
      rw [e1, e2, e3]
      exact h

/-- **No lost wake-up.** -/
theorem Tokens.no_lost_wakeup (K : Tokens code c env data go stop T) {v : σ}
    (A : Outline code env v data go stop) {s : State ι ο σ ρ}
    (h : (system code env v).Reachable s) : Covered code c T s := by
  refine System.invariant (I := Covered code c T) (fun s hs => ?_)
    (fun _ _ hr hi hs => step_covered K (A.holds hr) hi hs) h
  subst hs
  exact Or.inl (count_eq_zero_iff.mpr fun _ => rfl)

omit [DecidableEq ι] in
/-- With the mutex free no signal is owed. -/
theorem owed_eq_zero {s : State ι ο σ ρ} (h : Mutex s) (hf : s.owner = none) :
    owed code c s = 0 := by
  refine count_eq_zero_iff.mpr fun t => ?_
  have hout := h.out_of_free hf t
  cases hp : s.phase t with
  | notify o r => rw [hp] at hout; exact absurd hout (by simp [Phase.holds])
  | _ => rfl

omit [DecidableEq ι] in
/-- With the mutex free, only phases outside it count. -/
theorem comingTo_of_free {s : State ι ο σ ρ} (h : Mutex s) (hf : s.owner = none)
    {q : Phase ο ρ → Bool} (hq : ∀ p, p.holds = false → coming code c p = q p) :
    comingTo code c s = count q s.phase :=
  count_congr fun t => hq _ (h.out_of_free hf t)

/-! ## One condition variable, signalled before every wait -/

/-- At most one thread is blocked on `c`, and none while a thread is about to wait. -/
structure OneBlocked (code : ο → Proc κ σ ρ) (c : κ) (s : State ι ο σ ρ) : Prop where
  le_one : blockedOn code c s ≤ 1
  none_before_wait : ∀ t o, s.phase t = .wait o → blockedOn code c s = 0

omit [DecidableEq ι] in
/-- Only the phases occur in it. -/
theorem oneBlocked_of_phase {s s₁ : State ι ο σ ρ} (h : OneBlocked code c s)
    (hp : s₁.phase = s.phase) : OneBlocked code c s₁ := by
  have hb : blockedOn code c s₁ = blockedOn code c s := by unfold blockedOn; rw [hp]
  exact ⟨hb ▸ h.le_one, fun t o ht => hb ▸ h.none_before_wait t o (hp ▸ ht)⟩

/-- A move to a phase that is neither blocked nor about to wait. -/
theorem oneBlocked_goto {s : State ι ο σ ρ} (h : OneBlocked code c s) {t : ι} {p : Phase ο ρ}
    (hb : onCv code c p = false) (hw : ∀ o, p ≠ .wait o) : OneBlocked code c (s.goto t p) := by
  have h1 := blockedOn_goto code c s t p
  rw [hb] at h1
  simp only [Bool.false_eq_true, if_false] at h1
  refine ⟨by have := h.le_one; omega, ?_⟩
  intro u o hu
  rw [goto_phase] at hu
  split_ifs at hu
  · exact absurd hu (hw o)
  · have := h.none_before_wait u o hu
    omega

theorem Signal.oneBlocked {s s₁ : State ι ο σ ρ} (hs : Signal code c s s₁)
    (h : OneBlocked code c s) : blockedOn code c s₁ = 0 := by
  cases hs with
  | wakes u o hu hd =>
    obtain ⟨h1, -, -⟩ := wake_one code c hu
    rw [if_pos hd] at h1
    have := h.le_one
    omega
  | lost hn => exact count_eq_zero_iff.mpr hn

/-- **One condition variable, signalled before every wait**: at most one thread is blocked. -/
theorem one_blocked (hcode : ∀ o, (code o).retry = .wait (some c) c)
    (hn : ∀ o d, (code o).notify = some d → d = c) {v : σ} {s : State ι ο σ ρ}
    (h : (system code env v).Reachable s) : OneBlocked code c s := by
  refine System.invariant (I := OneBlocked code c) (fun s hs => ?_) (fun s s' hr hi hs => ?_) h
  · subst hs
    have h0 : blockedOn code c (State.start v : State ι ο σ ρ) = 0 :=
      count_eq_zero_iff.mpr fun _ => rfl
    exact ⟨by omega, fun _ _ _ => h0⟩
  have hwf := reachable_wf hr
  have hzero : ∀ {s₁ : State ι ο σ ρ}, blockedOn code c s₁ = 0 → OneBlocked code c s₁ :=
    fun h0 => ⟨by omega, fun _ _ _ => h0⟩
  cases hs with
  | spurious t o hp => exact oneBlocked_goto hi rfl (by simp)
  | call t o hp => exact oneBlocked_goto hi rfl (by simp)
  | collect t o r hp => exact oneBlocked_goto hi rfl (by simp)
  | write x hx => exact ⟨hi.le_one, hi.none_before_wait⟩
  | broadcast d =>
    have hle : blockedOn code c (s.wakeAll code d) ≤ blockedOn code c s := by
      refine Finset.card_le_card fun t ht => ?_
      simp only [Finset.mem_filter, Finset.mem_univ, true_and] at ht ⊢
      rcases wake_cases code d (s.phase t) with ⟨o, -, -, h2⟩ | ⟨-, h2⟩
      · have ht' : onCv code c (wake code d (s.phase t)) = true := ht
        exact absurd ht' (by simp [h2, onCv])
      · exact h2 ▸ (show onCv code c (wake code d (s.phase t)) = true from ht)
    refine ⟨hle.trans hi.le_one, ?_⟩
    intro t o ht
    have ht' : wake code d (s.phase t) = .wait o := ht
    have := hi.none_before_wait t o (wake_ne ht' (by simp))
    omega
  | move t _ hm =>
    cases hm with
    | acquire o hp hf =>
      exact oneBlocked_of_phase (oneBlocked_goto (t := t) (p := .test o) hi rfl (by simp)) rfl
    | proceed o hp hw => exact oneBlocked_goto hi rfl (by simp)
    | stop o hp hw => rw [hcode o]; exact oneBlocked_goto hi rfl (by simp [Retry.phase])
    | passOn o d e s₁ hp hr hs =>
      obtain rfl : d = c := by rw [hcode o] at hr; simpa using (Retry.wait.inj hr).1.symm
      have h0 := hs.oneBlocked hi
      have h1 := blockedOn_goto code d s₁ t (.wait o)
      simp only [onCv, Bool.false_eq_true, if_false] at h1
      exact hzero (by omega)
    | wait o hp =>
      -- the mutex keeps every other thread away from its wait
      have h0 := hi.none_before_wait t o hp
      have h1 := blockedOn_goto code c s t (.blocked o)
      rw [hp] at h1
      simp only [onCv, hcode o, Retry.on, decide_true, if_true, Bool.false_eq_true, if_false,
        Nat.add_zero] at h1
      refine ⟨by show blockedOn code c (s.goto t _) ≤ 1; omega, ?_⟩
      intro u o' hu
      have hu' : (s.goto t (.blocked o)).phase u = .wait o' := hu
      rw [goto_phase] at hu'
      split_ifs at hu' with hut
      exact absurd (hwf.mutex.unique (by rw [hu']; rfl) (by rw [hp]; rfl)) hut
    | spin o hp =>
      exact oneBlocked_of_phase (oneBlocked_goto (t := t) (p := .lock o) hi rfl (by simp)) rfl
    | body o hp =>
      refine oneBlocked_of_phase (oneBlocked_goto (t := t)
        (p := (code o).after o ((code o).body s.shared).1) hi ?_ fun o' => ?_) rfl <;>
        unfold Proc.after <;> split <;> simp [onCv]
    | notify o r d s₁ hp hd hs =>
      obtain rfl := hn o d hd
      exact oneBlocked_goto (hzero (hs.oneBlocked hi)) rfl (by simp)
    | release o r hp =>
      exact oneBlocked_of_phase (oneBlocked_goto (t := t) (p := .returned o r) hi rfl (by simp)) rfl

/-- There, a signal after a body leaves nobody waiting. -/
theorem Move.nobody_waits (hcode : ∀ o, (code o).retry = .wait (some c) c)
    (hn : ∀ o d, (code o).notify = some d → d = c) {s s' : State ι ο σ ρ} (hwf : WF code s)
    (hone : OneBlocked code c s) {t : ι} (h : Move code s t s') {o : ο} {r : ρ}
    (hp : s.phase t = .notify o r) (u : ι) : (s'.phase u).waiting = false := by
  cases h with
  | acquire o' hp' => rcases hp' with hp' | hp' <;> exact absurd (hp.symm.trans hp') (by simp)
  | notify o' r' d s₁ hp' hd hs =>
    obtain rfl := hn o' d hd
    have h0 := count_eq_zero_iff.mp (hs.oneBlocked hone) u
    rw [goto_phase]
    split_ifs with hut
    · rfl
    have hout : (s.phase u).holds ≠ true := fun hh =>
      hut (hwf.mutex.unique hh (by rw [hp]; rfl))
    cases hu : s₁.phase u with
    | blocked o'' =>
      rw [hu] at h0
      exact absurd h0 (by simp [onCv, hcode, Retry.on])
    | passOn o'' | wait o'' =>
      rcases hs.spec.2.2.2.2 u with he | ⟨_, -, he⟩
      · exact absurd (by rw [← he, hu]; rfl) hout
      · exact absurd (hu.symm.trans he) (by simp)
    | _ => rfl
  | proceed o' hp' | stop o' hp' | passOn o' _ _ _ hp' | wait o' hp' | spin o' hp' | body o' hp'
  | release o' _ hp' => exact absurd (hp.symm.trans hp') (by simp)

end SystemProgramming.Lib.Monitor
