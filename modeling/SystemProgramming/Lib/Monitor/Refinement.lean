import SystemProgramming.Lib.Monitor.Basic

/-!
# Data refinement through a monitor

Two monitors with the same procedures over different shared values, where a relation says which
value of the one stands for which value of the other (`ProcOver`). Threads, mutex and condition
variables are the same, so a state of the second monitor is one of the first with another shared
value (`State.withShared`).

* `Move.withShared`: what a thread does over the one it does over the other.
* `Move.of_withShared`: and it can do nothing over the other that it cannot do over the one.
-/

namespace SystemProgramming.Lib.Monitor

variable {ι ο κ σ τ ρ : Type}

/-- **A procedure over values that stand for others.** It tests, signals and returns the same, and
its body keeps the relation. -/
structure ProcOver (R : σ → τ → Prop) (p : Proc κ σ ρ) (q : Proc κ τ ρ) : Prop where
  retry : p.retry = q.retry
  notify : p.notify = q.notify
  waits : ∀ x y, R x y → p.waits x = q.waits y
  body : ∀ x y, R x y → (p.body x).1 = (q.body y).1 ∧ R (p.body x).2 (q.body y).2

/-- The state with another shared value. -/
def State.withShared (s : State ι ο σ ρ) (v : τ) : State ι ο τ ρ :=
  ⟨s.owner, v, s.phase, s.log, s.returns⟩

variable [DecidableEq ι] [DecidableEq κ] {R : σ → τ → Prop} {code : ο → Proc κ σ ρ}
  {code' : ο → Proc κ τ ρ} {s s' : State ι ο σ ρ} {v : τ} {t : ι} {c : κ}

theorem onCv_withShared (h : ∀ o, ProcOver R (code o) (code' o)) (p : Phase ο ρ) :
    onCv code' c p = onCv code c p := by
  cases p <;> simp [onCv, (h _).retry]

/-- A signal neither reads nor writes the shared value. -/
theorem Signal.withShared (h : ∀ o, ProcOver R (code o) (code' o)) (hs : Signal code c s s')
    (v : τ) : Signal code' c (s.withShared v) (s'.withShared v) ∧ s'.shared = s.shared := by
  cases hs with
  | wakes u o hu hc => exact ⟨.wakes u o hu ((h o).retry ▸ hc), rfl⟩
  | lost hn => exact ⟨.lost fun u => (onCv_withShared h _).trans (hn u), rfl⟩

theorem Signal.of_withShared (h : ∀ o, ProcOver R (code o) (code' o)) {s₂ : State ι ο τ ρ}
    (hs : Signal code' c (s.withShared v) s₂) : ∃ s', Signal code c s s' := by
  cases hs with
  | wakes u o hu hc => exact ⟨_, .wakes u o hu ((h o).retry ▸ hc)⟩
  | lost hn => exact ⟨_, .lost fun u => (onCv_withShared h _).symm.trans (hn u)⟩

/-- **What a thread does** over values that stand for others. -/
theorem Move.withShared (h : ∀ o, ProcOver R (code o) (code' o)) (hm : Move code s t s')
    (hv : R s.shared v) : ∃ v', Move code' (s.withShared v) t (s'.withShared v') ∧
      R s'.shared v' := by
  cases hm with
  | acquire o hp hf => exact ⟨v, .acquire o hp hf, hv⟩
  | proceed o hp hw => exact ⟨v, .proceed o hp (((h o).waits _ _ hv).symm.trans hw), hv⟩
  | stop o hp hw =>
    have hmove : Move code' (s.withShared v) t
        ((s.withShared v).goto t ((code' o).retry.phase o)) :=
      .stop o hp (((h o).waits _ _ hv).symm.trans hw)
    rw [← (h o).retry] at hmove
    exact ⟨v, hmove, hv⟩
  | passOn o c d s₁ hp hr hs =>
    obtain ⟨hs', heq⟩ := hs.withShared h v
    exact ⟨v, .passOn o c d (s₁.withShared v) hp ((h o).retry.symm.trans hr) hs', heq.symm ▸ hv⟩
  | wait o hp => exact ⟨v, .wait o hp, hv⟩
  | spin o hp => exact ⟨v, .spin o hp, hv⟩
  | body o hp =>
    obtain ⟨hret, hbody⟩ := (h o).body _ _ hv
    have hafter : (code' o).after o ((code o).body s.shared).1 =
        (code o).after o ((code o).body s.shared).1 := by
      unfold Proc.after
      rw [(h o).notify]
    have hmove : Move code' (s.withShared v) t
        { (s.withShared v).goto t ((code' o).after o ((code' o).body v).1) with
          shared := ((code' o).body v).2
          log := s.log ++ [(t, o, ((code' o).body v).1)] } := .body o hp
    rw [← hret, hafter] at hmove
    exact ⟨((code' o).body v).2, hmove, hbody⟩
  | notify o r c s₁ hp hn hs =>
    obtain ⟨hs', heq⟩ := hs.withShared h v
    exact ⟨v, .notify o r c (s₁.withShared v) hp ((h o).notify.symm.trans hn) hs', heq.symm ▸ hv⟩
  | release o r hp => exact ⟨v, .release o r hp, hv⟩

/-- **What it can do** over the others it can do over the values that stand for them. -/
theorem Move.of_withShared (h : ∀ o, ProcOver R (code o) (code' o)) {s₂ : State ι ο τ ρ}
    (hm : Move code' (s.withShared v) t s₂) (hv : R s.shared v) : ∃ s', Move code s t s' := by
  cases hm with
  | acquire o hp hf => exact ⟨_, .acquire o hp hf⟩
  | proceed o hp hw => exact ⟨_, .proceed o hp (((h o).waits _ _ hv).trans hw)⟩
  | stop o hp hw => exact ⟨_, .stop o hp (((h o).waits _ _ hv).trans hw)⟩
  | passOn o c d s₁ hp hr hs =>
    obtain ⟨s', hs'⟩ := hs.of_withShared h
    exact ⟨_, .passOn o c d s' hp ((h o).retry ▸ hr) hs'⟩
  | wait o hp => exact ⟨_, .wait o hp⟩
  | spin o hp => exact ⟨_, .spin o hp⟩
  | body o hp => exact ⟨_, .body o hp⟩
  | notify o r c s₁ hp hn hs =>
    obtain ⟨s', hs'⟩ := hs.of_withShared h
    exact ⟨_, .notify o r c s' hp ((h o).notify ▸ hn) hs'⟩
  | release o r hp => exact ⟨_, .release o r hp⟩

end SystemProgramming.Lib.Monitor
