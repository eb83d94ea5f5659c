import Mathlib.Algebra.Order.BigOperators.Group.Finset
import SystemProgramming.Lib.Monitor.Invariant

/-!
# How far a monitor runs between two bodies

`Phase.rank` bounds the moves that a thread can make before it runs a body, blocks or is back at
its caller, together with the moves of the one thread that its signal may wake up. The bound
depends on the shared value: a thread that finds it has to wait may pass a signal on first.

* `Move.ranks_lt`: every move but a body lowers the sum of the ranks. What it asks for is that no
  thread spins, and that a thread woken by one that is about to wait does not have to wait itself.
* `ranks_le`: after a body the sum is what it can be at most.
-/

namespace SystemProgramming.Lib.Monitor

variable {ι ο κ σ ρ : Type} (code : ο → Proc κ σ ρ)

/-- How far a thread is from a body, a wait or its caller, with the shared value `v`. -/
def Phase.rank (v : σ) : Phase ο ρ → Nat
  | .idle | .blocked _ | .body _ | .retry _ => 0
  | .lock o | .woken o => if (code o).waits v = true then 6 else 2
  | .test o => if (code o).waits v = true then 5 else 1
  | .passOn _ => 4
  | .wait _ => 1
  | .notify _ _ => 9
  | .release _ _ => 2
  | .returned _ _ => 1

theorem rank_le (v : σ) (p : Phase ο ρ) : p.rank code v ≤ 9 := by
  cases p with
  | lock o | woken o | test o => simp only [Phase.rank]; split_ifs <;> omega
  | _ => exact Nat.le_of_ble_eq_true rfl

/-- A thread that is woken up gets a rank of at most 6, and of 2 if it can go on. -/
theorem rank_woken_le (v : σ) (o : ο) : (Phase.woken (ρ := ρ) o).rank code v ≤ 6 := by
  simp only [Phase.rank]
  split_ifs <;> omega

theorem rank_retry_phase_le (v : σ) (r : Retry κ) (o : ο) :
    (r.phase (ρ := ρ) o).rank code v ≤ 4 := by
  rcases retry_phase_cases (ρ := ρ) r o with ⟨-, h⟩ | ⟨c, d, -, h⟩ | ⟨d, -, h⟩ <;> rw [h] <;>
    exact Nat.le_of_ble_eq_true rfl

variable [Fintype ι]

/-- The sum of the threads' ranks. -/
def ranks (s : State ι ο σ ρ) : Nat := ∑ t, (s.phase t).rank code s.shared

theorem ranks_le (s : State ι ο σ ρ) : ranks code s ≤ 9 * Fintype.card ι := by
  refine (Finset.sum_le_card_nsmul _ _ 9 fun t _ => rank_le code _ _).trans_eq ?_
  exact Nat.mul_comm _ _

variable [DecidableEq ι]

theorem ranks_goto (s : State ι ο σ ρ) (t : ι) (p : Phase ο ρ) :
    ranks code (s.goto t p) + (s.phase t).rank code s.shared =
      ranks code s + p.rank code s.shared := by
  have h := sum_change (f := fun u => (s.phase u).rank code s.shared)
    (g := fun u => ((s.goto t p).phase u).rank code s.shared) (t := t)
    fun u hu => by rw [goto_phase_of_ne _ _ hu]
  rwa [goto_phase_self] at h

variable {code} [DecidableEq κ]

/-- A signal raises the sum by the rank of the one it wakes up. -/
theorem Signal.ranks_le {c : κ} {s s₁ : State ι ο σ ρ} (h : Signal code c s s₁) {b : Nat}
    (hb : ∀ u o, s.phase u = .blocked o → (code o).retry.on = some c →
      (Phase.woken (ρ := ρ) o).rank code s.shared ≤ b) : ranks code s₁ ≤ ranks code s + b := by
  cases h with
  | wakes u o hu hc =>
    have hg := ranks_goto code s u (.woken o)
    have := hb u o hu hc
    omega
  | lost hn => exact Nat.le_add_right _ _

/-- **Every move but a body lowers the sum of the ranks.** -/
theorem Move.ranks_lt {s s' : State ι ο σ ρ} {t : ι} (hm : Move code s t s')
    (hretry : ∀ o, s.phase t ≠ .retry o)
    (hpass : ∀ o c d, s.phase t = .passOn o → (code o).retry = .wait (some c) d →
      ∀ u o', s.phase u = .blocked o' → (code o').retry.on = some c →
        (code o').waits s.shared = false)
    (hb : ∀ o, s.phase t ≠ .body o) : ranks code s' < ranks code s := by
  -- a move of `t` alone, from the state after its signal
  have hgoto : ∀ (s₁ : State ι ο σ ρ) (p : Phase ο ρ) {b : Nat}, s₁.phase t = s.phase t →
      s₁.shared = s.shared → ranks code s₁ ≤ ranks code s + b →
      p.rank code s.shared + b < (s.phase t).rank code s.shared →
      ranks code (s₁.goto t p) < ranks code s := fun s₁ p b hp hv hle hlt => by
    have hg := ranks_goto code s₁ t p
    rw [hp, hv] at hg
    omega
  have hown : ∀ (p : Phase ο ρ), p.rank code s.shared < (s.phase t).rank code s.shared →
      ranks code (s.goto t p) < ranks code s := fun p hlt =>
    hgoto s p rfl rfl (le_refl (ranks code s + 0)) hlt
  cases hm with
  | acquire o hp hf =>
    refine hown _ ?_
    rcases hp with hp | hp <;> rw [hp] <;> simp only [Phase.rank] <;>
      split_ifs <;> omega
  | proceed o hp hw =>
    refine hown _ ?_
    rw [hp]
    simp [Phase.rank, hw]
  | stop o hp hw =>
    refine hown _ (lt_of_le_of_lt (rank_retry_phase_le code _ _ _) ?_)
    rw [hp]
    simp [Phase.rank, hw]
  | passOn o c d s₁ hp hr hs =>
    refine hgoto s₁ _ (hs.giver (by simp [hp])) hs.spec.2.1
      (hs.ranks_le (b := 2) fun u o' hu ho' => ?_) (by rw [hp]; exact Nat.le_refl 4)
    simp [Phase.rank, hpass o c d hp hr u o' hu ho']
  | wait o hp => exact hown _ (by rw [hp]; exact Nat.one_pos)
  | spin o hp => exact absurd hp (hretry o)
  | body o hp => exact absurd hp (hb o)
  | notify o r c s₁ hp hn hs =>
    exact hgoto s₁ _ (hs.giver (by simp [hp])) hs.spec.2.1
      (hs.ranks_le (b := 6) fun _ o' _ _ => rank_woken_le code _ o')
      (by rw [hp]; exact Nat.le_refl 9)
  | release o r hp => exact hown _ (by rw [hp]; exact Nat.one_lt_two)

/-- The result of a body that has run in the call a thread is in. -/
def Phase.ran : Phase ο ρ → Option ρ
  | .notify _ r | .release _ r | .returned _ r => some r
  | _ => none

omit [DecidableEq ι] [Fintype ι] in
/-- A broadcast leaves what has run. -/
theorem wakeAll_ran (c : κ) (s : State ι ο σ ρ) (u : ι) :
    ((s.wakeAll code c).phase u).ran = (s.phase u).ran := by
  show (wake code c (s.phase u)).ran = _
  rcases wake_cases code c (s.phase u) with ⟨o, h1, -, h2⟩ | ⟨-, h2⟩
  · rw [h2, h1]; rfl
  · rw [h2]

omit [Fintype ι] in
/-- **A move that is not a body leaves what has run.** -/
theorem Move.ran {s s' : State ι ο σ ρ} {t : ι} (hm : Move code s t s')
    (hb : ∀ o, s.phase t ≠ .body o) (u : ι) : (s'.phase u).ran = (s.phase u).ran := by
  have hsignal : ∀ {c : κ} {s₁ : State ι ο σ ρ}, Signal code c s s₁ →
      ∀ u, (s₁.phase u).ran = (s.phase u).ran := fun hs u => by
    rcases hs.spec.2.2.2.2 u with h | ⟨o, h1, h2⟩
    · rw [h]
    · rw [h1, h2]; rfl
  cases hm with
  | acquire o hp hf => exact phase_goto (by rcases hp with hp | hp <;> rw [hp] <;> rfl) u
  | stop o hp hw =>
    refine phase_goto ?_ u
    rcases retry_phase_cases (ρ := ρ) (code o).retry o with ⟨-, h⟩ | ⟨c, d, -, h⟩ | ⟨d, -, h⟩ <;>
      rw [h, hp] <;> rfl
  | passOn o c d s₁ hp hr hs =>
    rw [phase_goto (f := Phase.ran) (by rw [hs.giver (by simp [hp]), hp]; rfl) u, hsignal hs]
  | notify o r c s₁ hp hn hs =>
    rw [phase_goto (f := Phase.ran) (by rw [hs.giver (by simp [hp]), hp]; rfl) u, hsignal hs]
  | body o hp => exact absurd hp (hb o)
  | proceed o hp hw => exact phase_goto (by rw [hp]; rfl) u
  | wait o hp => exact phase_goto (by rw [hp]; rfl) u
  | spin o hp => exact phase_goto (by rw [hp]; rfl) u
  | release o r hp => exact phase_goto (by rw [hp]; rfl) u

omit [Fintype ι] in
/-- What a thread about to run a body does. -/
theorem Move.of_body {s s' : State ι ο σ ρ} {t : ι} (hm : Move code s t s') {o : ο}
    (hp : s.phase t = .body o) :
    s' = { s.goto t ((code o).after o ((code o).body s.shared).1) with
      shared := ((code o).body s.shared).2
      log := s.log ++ [(t, o, ((code o).body s.shared).1)] } := by
  have hne : ∀ {p : Phase ο ρ}, s.phase t = p → p ≠ .body o → False := fun h1 h2 =>
    h2 (h1.symm.trans hp)
  cases hm with
  | body o' hp' =>
    obtain rfl : o' = o := by simpa using hp'.symm.trans hp
    rfl
  | acquire o' hp' hf => rcases hp' with hp' | hp' <;> exact (hne hp' (by simp)).elim
  | proceed o' hp' hw => exact (hne hp' (by simp)).elim
  | stop o' hp' hw => exact (hne hp' (by simp)).elim
  | passOn o' c d s₁ hp' hr hs => exact (hne hp' (by simp)).elim
  | wait o' hp' => exact (hne hp' (by simp)).elim
  | spin o' hp' => exact (hne hp' (by simp)).elim
  | notify o' r c s₁ hp' hn hs => exact (hne hp' (by simp)).elim
  | release o' r hp' => exact (hne hp' (by simp)).elim

omit [Fintype ι] in
/-- A thread is about to start over only after it has found that it has to wait. -/
theorem Step.retry {env : σ → σ → Prop} {s s' : State ι ο σ ρ} (hn : Step code env s s') {t : ι}
    {o : ο} (h : s'.phase t = .retry o) : s.phase t = .retry o ∨
      s.phase t = .test o ∧ (code o).waits s.shared = true ∧ (code o).retry = .spin := by
  have hgoto : ∀ {s₁ : State ι ο σ ρ} {u : ι} {p : Phase ο ρ},
      (s₁.goto u p).phase t = .retry o → (∀ o, p ≠ .retry o) → s₁.phase t = .retry o :=
    fun h1 h2 => by
      rw [goto_phase] at h1
      split_ifs at h1
      · exact absurd h1 (h2 o)
      · exact h1
  have hsignal : ∀ {c : κ} {s₁ : State ι ο σ ρ}, Signal code c s s₁ → s₁.phase t = .retry o →
      s.phase t = .retry o := fun hs h1 => by
    rcases hs.spec.2.2.2.2 t with he | ⟨o', -, he⟩
    · exact he.symm.trans h1
    · exact absurd (he.symm.trans h1) (by simp)
  cases hn with
  | move u s' hm =>
    cases hm with
    | stop o' hp hw =>
      rw [goto_phase] at h
      split_ifs at h with htu
      · right
        subst htu
        rcases retry_phase_cases (ρ := ρ) (code o').retry o' with ⟨hr, he⟩ | ⟨c, d, -, he⟩ |
          ⟨d, -, he⟩
        · obtain rfl := Phase.retry.inj (he.symm.trans h)
          exact ⟨hp, hw, hr⟩
        · exact absurd (he.symm.trans h) (by simp)
        · exact absurd (he.symm.trans h) (by simp)
      · exact Or.inl h
    | passOn o' c d s₁ hp hr hs => exact Or.inl (hsignal hs (hgoto h (by simp)))
    | notify o' r c s₁ hp hn hs => exact Or.inl (hsignal hs (hgoto h (by simp)))
    | body o' hp =>
      refine Or.inl (hgoto h fun o'' => ?_)
      unfold Proc.after
      split <;> simp
    | _ => exact Or.inl (hgoto h (by simp))
  | write w hv => exact Or.inl h
  | broadcast c => exact Or.inl (wake_ne h (by simp))
  | _ => exact Or.inl (hgoto h (by simp))

omit [Fintype ι] in
/-- Where no procedure spins, no thread is about to start over. -/
theorem not_retry {env : σ → σ → Prop} {v : σ} (hspin : ∀ o, (code o).retry ≠ .spin)
    {s : State ι ο σ ρ} (h : (system code env v).Reachable s) (t : ι) (o : ο) :
    s.phase t ≠ .retry o := by
  revert t o
  refine System.invariant (I := fun s => ∀ t o, s.phase t ≠ .retry o) (fun s hs => ?_)
    (fun s s' _ ih hn => ?_) h
  · obtain rfl : s = .start v := hs
    exact fun t o => by simp [State.start]
  · intro t o ho
    rcases hn.retry ho with hold | ⟨-, -, hr⟩
    · exact ih t o hold
    · exact hspin o hr

omit [DecidableEq κ] in
/-- A spurious wake-up raises the sum by 6 at most. -/
theorem ranks_woken_le (code : ο → Proc κ σ ρ) (s : State ι ο σ ρ) (t : ι) (o : ο) :
    ranks code (s.goto t (.woken o)) ≤ ranks code s + 6 := by
  have hg := ranks_goto code s t (.woken o)
  have := rank_woken_le (ρ := ρ) code s.shared o
  omega

end SystemProgramming.Lib.Monitor
