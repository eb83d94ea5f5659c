import SystemProgramming.Lib.Transition

/-!
# Monitors: procedures over a mutex and condition variables

A monitor is a shared value `σ` that a family of threads reads and writes only inside procedures
of one shape (`Proc`):

    lock; while (waits) { retry }; body; notify; unlock; return

where `retry` either waits on a condition variable, after passing a signal on if the procedure
says so, or spins: it unlocks and starts over. `Phase` is where a thread stands in that text, one
constructor for each point between two atomic steps. Entering a wait releases the mutex and blocks
in one step. A woken thread has to take the mutex again before it tests.

`step` is the executable semantics of one thread. A signal wakes one thread of the wait set if
there is any, and the second argument chooses which. `Move` lists what a thread can do, one
constructor per kind of step, and `step_iff` says the two are the same.

`Step` is the open system: any thread may call any procedure at any time, a blocked thread may
wake up spuriously, and the surroundings may change the shared value outside the mutex (`env`)
and broadcast. The state records two histories: `log`, the bodies that ran, in order, and
`returns`, the calls each thread has finished.
-/

namespace SystemProgramming.Lib.Monitor

/-! ## Procedures -/

/-- What a procedure does under the mutex when it may not go on. -/
inductive Retry (κ : Type) where
  /-- Unlock and start over. -/
  | spin
  /-- Signal `passOn`, if given, and wait on `on`. -/
  | wait (passOn : Option κ) (on : κ)

/-- A monitor procedure: condition variables `κ`, shared values `σ`, results `ρ`. -/
structure Proc (κ σ ρ : Type) where
  /-- The loop condition. The procedure goes on when it is false. -/
  waits : σ → Bool
  retry : Retry κ
  body : σ → ρ × σ
  /-- The condition variable signalled after the body. -/
  notify : Option κ

/-- Where a thread stands in a call of `o`. -/
inductive Phase (ο ρ : Type) where
  | idle
  | lock (o : ο)
  | test (o : ο)
  | passOn (o : ο)
  | wait (o : ο)
  | blocked (o : ο)
  | woken (o : ο)
  | retry (o : ο)
  | body (o : ο)
  | notify (o : ο) (r : ρ)
  | release (o : ο) (r : ρ)
  | returned (o : ο) (r : ρ)
  deriving DecidableEq

/-- The phases between taking the mutex and giving it back. -/
def Phase.holds {ο ρ : Type} : Phase ο ρ → Bool
  | .test _ | .passOn _ | .wait _ | .retry _ | .body _ | .notify _ _ | .release _ _ => true
  | _ => false

/-- The phases from which a thread takes its next step by itself. -/
def Phase.awake {ο ρ : Type} : Phase ο ρ → Bool
  | .idle | .blocked _ | .returned _ _ => false
  | _ => true

/-- The call a thread is in. -/
def Phase.op {ο ρ : Type} : Phase ο ρ → Option ο
  | .idle => none
  | .lock o | .test o | .passOn o | .wait o | .blocked o | .woken o | .retry o | .body o
  | .notify o _ | .release o _ | .returned o _ => some o

/-- The result a thread is about to take. -/
def Phase.result {ο ρ : Type} : Phase ο ρ → Option (ο × ρ)
  | .returned o r => some (o, r)
  | _ => none

/-- A thread that has found it has to wait, and has not been woken since. -/
def Phase.waiting {ο ρ : Type} : Phase ο ρ → Bool
  | .passOn _ | .wait _ | .blocked _ => true
  | _ => false

/-- The call a thread has finished under the mutex, signal included. -/
def Phase.finished {ο ρ : Type} : Phase ο ρ → Option (ο × ρ)
  | .release o r | .returned o r => some (o, r)
  | _ => none

/-- Where the loop body of a procedure starts. -/
def Retry.phase {κ ο ρ : Type} : Retry κ → ο → Phase ο ρ
  | .spin, o => .retry o
  | .wait (some _) _, o => .passOn o
  | .wait none _, o => .wait o

/-- The condition variable a procedure waits on. -/
def Retry.on {κ : Type} : Retry κ → Option κ
  | .spin => none
  | .wait _ c => some c

/-- Where a procedure continues after its body. -/
def Proc.after {κ σ ρ ο : Type} (p : Proc κ σ ρ) (o : ο) (r : ρ) : Phase ο ρ :=
  match p.notify with
  | some _ => .notify o r
  | none => .release o r

/-- The state of a monitor: the owner of the mutex, the shared value, where every thread stands,
and the two histories. -/
structure State (ι ο σ ρ : Type) where
  owner : Option ι
  shared : σ
  phase : ι → Phase ο ρ
  log : List (ι × ο × ρ)
  returns : ι → List (ο × ρ)

variable {ι ο κ σ ρ : Type}

/-- Nobody has called anything. -/
def State.start (v : σ) : State ι ο σ ρ where
  owner := none
  shared := v
  phase := fun _ => .idle
  log := []
  returns := fun _ => []

section Steps

variable [DecidableEq ι]

/-- Thread `t` moves to phase `p`. -/
def State.goto (s : State ι ο σ ρ) (t : ι) (p : Phase ο ρ) : State ι ο σ ρ :=
  { s with phase := Function.update s.phase t p }

@[simp] theorem goto_owner (s : State ι ο σ ρ) (t : ι) (p : Phase ο ρ) :
    (s.goto t p).owner = s.owner := rfl

@[simp] theorem goto_shared (s : State ι ο σ ρ) (t : ι) (p : Phase ο ρ) :
    (s.goto t p).shared = s.shared := rfl

@[simp] theorem goto_returns (s : State ι ο σ ρ) (t : ι) (p : Phase ο ρ) :
    (s.goto t p).returns = s.returns := rfl

@[simp] theorem goto_phase_self (s : State ι ο σ ρ) (t : ι) (p : Phase ο ρ) :
    (s.goto t p).phase t = p := Function.update_self ..

theorem goto_phase_of_ne (s : State ι ο σ ρ) {t u : ι} (p : Phase ο ρ) (h : u ≠ t) :
    (s.goto t p).phase u = s.phase u := Function.update_of_ne h ..

theorem goto_phase (s : State ι ο σ ρ) (t u : ι) (p : Phase ο ρ) :
    (s.goto t p).phase u = if u = t then p else s.phase u := by
  unfold State.goto
  exact Function.update_apply ..

theorem goto_eq_self {s : State ι ο σ ρ} {t : ι} {p : Phase ο ρ} (h : s.phase t = p) :
    s.goto t p = s := by
  subst h
  unfold State.goto
  rw [Function.update_eq_self]

variable [DecidableEq κ] (code : ο → Proc κ σ ρ)

/-- A thread in this phase is in the wait set of `c`. -/
def onCv (c : κ) : Phase ο ρ → Bool
  | .blocked o => decide ((code o).retry.on = some c)
  | _ => false

/-- What a wake-up on `c` makes of a phase. -/
def wake (c : κ) (p : Phase ο ρ) : Phase ο ρ :=
  match p with
  | .blocked o => if (code o).retry.on = some c then .woken o else .blocked o
  | p => p

/-- `pthread_cond_broadcast`: everyone in the wait set of `c` wakes up. -/
def State.wakeAll (c : κ) (s : State ι ο σ ρ) : State ι ο σ ρ :=
  { s with phase := fun t => wake code c (s.phase t) }

/-! ## One thread -/

/-- **What `pthread_cond_signal` does**: one thread of the wait set wakes up, and nothing happens
when the wait set is empty. -/
inductive Signal (c : κ) (s : State ι ο σ ρ) : State ι ο σ ρ → Prop
  | wakes (u : ι) (o : ο) (hu : s.phase u = .blocked o) (hc : (code o).retry.on = some c) :
      Signal c s (s.goto u (.woken o))
  | lost (hn : ∀ u, onCv code c (s.phase u) = false) : Signal c s s

/-- **What a thread can do.** -/
inductive Move (s : State ι ο σ ρ) (t : ι) : State ι ο σ ρ → Prop
  | acquire (o : ο) (hp : s.phase t = .lock o ∨ s.phase t = .woken o) (hf : s.owner = none) :
      Move s t { s.goto t (.test o) with owner := some t }
  | proceed (o : ο) (hp : s.phase t = .test o) (hw : (code o).waits s.shared = false) :
      Move s t (s.goto t (.body o))
  | stop (o : ο) (hp : s.phase t = .test o) (hw : (code o).waits s.shared = true) :
      Move s t (s.goto t ((code o).retry.phase o))
  | passOn (o : ο) (c d : κ) (s₁ : State ι ο σ ρ) (hp : s.phase t = .passOn o)
      (hr : (code o).retry = .wait (some c) d) (hs : Signal code c s s₁) :
      Move s t (s₁.goto t (.wait o))
  | wait (o : ο) (hp : s.phase t = .wait o) :
      Move s t { s.goto t (.blocked o) with owner := none }
  | spin (o : ο) (hp : s.phase t = .retry o) :
      Move s t { s.goto t (.lock o) with owner := none }
  | body (o : ο) (hp : s.phase t = .body o) :
      Move s t { s.goto t ((code o).after o ((code o).body s.shared).1) with
        shared := ((code o).body s.shared).2
        log := s.log ++ [(t, o, ((code o).body s.shared).1)] }
  | notify (o : ο) (r : ρ) (c : κ) (s₁ : State ι ο σ ρ) (hp : s.phase t = .notify o r)
      (hn : (code o).notify = some c) (hs : Signal code c s s₁) :
      Move s t (s₁.goto t (.release o r))
  | release (o : ο) (r : ρ) (hp : s.phase t = .release o r) :
      Move s t { s.goto t (.returned o r) with
        owner := none
        returns := Function.update s.returns t (s.returns t ++ [(o, r)]) }

variable [Fintype ι]

/-- `pthread_cond_signal`, executable. `w` is the thread that wakes up, `none` when the wait set
is empty. -/
def signal (c : κ) (w : Option ι) (s : State ι ο σ ρ) : Option (State ι ο σ ρ) :=
  match w with
  | some u =>
    match s.phase u with
    | .blocked o => if (code o).retry.on = some c then some (s.goto u (.woken o)) else none
    | _ => none
  | none => if ∀ u, onCv code c (s.phase u) = false then some s else none

/-- **One step of thread `t`**, executable. `w` chooses the thread a signal wakes up. -/
def step (s : State ι ο σ ρ) (t : ι) (w : Option ι) : Option (State ι ο σ ρ) :=
  match s.phase t with
  | .idle => none
  | .lock o => if s.owner.isNone then some { s.goto t (.test o) with owner := some t } else none
  | .test o =>
    some (s.goto t (if (code o).waits s.shared then (code o).retry.phase o else .body o))
  | .passOn o =>
    match (code o).retry with
    | .wait (some c) _ => (signal code c w s).map (·.goto t (.wait o))
    | _ => none
  | .wait o => some { s.goto t (.blocked o) with owner := none }
  | .blocked _ => none
  | .woken o => if s.owner.isNone then some { s.goto t (.test o) with owner := some t } else none
  | .retry o => some { s.goto t (.lock o) with owner := none }
  | .body o =>
    some { s.goto t ((code o).after o ((code o).body s.shared).1) with
      shared := ((code o).body s.shared).2
      log := s.log ++ [(t, o, ((code o).body s.shared).1)] }
  | .notify o r =>
    match (code o).notify with
    | some c => (signal code c w s).map (·.goto t (.release o r))
    | none => none
  | .release o r =>
    some { s.goto t (.returned o r) with
      owner := none
      returns := Function.update s.returns t (s.returns t ++ [(o, r)]) }
  | .returned _ _ => none

theorem signal_iff {c : κ} {s s' : State ι ο σ ρ} :
    (∃ w, signal code c w s = some s') ↔ Signal code c s s' := by
  constructor
  · rintro ⟨w, hw⟩
    unfold signal at hw
    split at hw
    · split at hw
      · rename_i o ho
        split_ifs at hw with hc
        obtain rfl := Option.some.inj hw
        exact .wakes _ o ho hc
      · exact absurd hw (by simp)
    · split_ifs at hw with hn
      obtain rfl := Option.some.inj hw
      exact .lost hn
  · intro h
    cases h with
    | wakes u o hu hc => exact ⟨some u, by simp [signal, hu, hc]⟩
    | lost hn => exact ⟨none, by simp [signal, hn]⟩

/-- **The executable step is `Move`.** -/
theorem step_iff {s s' : State ι ο σ ρ} {t : ι} :
    (∃ w, step code s t w = some s') ↔ Move code s t s' := by
  constructor
  · rintro ⟨w, hw⟩
    unfold step at hw
    split at hw
    · exact absurd hw (by simp)
    · rename_i o ho
      split_ifs at hw with hf
      obtain rfl := Option.some.inj hw
      exact .acquire o (Or.inl ho) (Option.isNone_iff_eq_none.mp hf)
    · rename_i o ho
      obtain rfl := Option.some.inj hw
      split_ifs with hc
      · exact .stop o ho hc
      · exact .proceed o ho (by simpa using hc)
    · rename_i o ho
      split at hw
      · rename_i c d hr
        obtain ⟨s₁, hs, rfl⟩ := Option.map_eq_some_iff.mp hw
        exact .passOn o c d s₁ ho hr ((signal_iff code).mp ⟨w, hs⟩)
      · exact absurd hw (by simp)
    · rename_i o ho
      obtain rfl := Option.some.inj hw
      exact .wait o ho
    · exact absurd hw (by simp)
    · rename_i o ho
      split_ifs at hw with hf
      obtain rfl := Option.some.inj hw
      exact .acquire o (Or.inr ho) (Option.isNone_iff_eq_none.mp hf)
    · rename_i o ho
      obtain rfl := Option.some.inj hw
      exact .spin o ho
    · rename_i o ho
      obtain rfl := Option.some.inj hw
      exact .body o ho
    · rename_i o r ho
      split at hw
      · rename_i c hn
        obtain ⟨s₁, hs, rfl⟩ := Option.map_eq_some_iff.mp hw
        exact .notify o r c s₁ ho hn ((signal_iff code).mp ⟨w, hs⟩)
      · exact absurd hw (by simp)
    · rename_i o r ho
      obtain rfl := Option.some.inj hw
      exact .release o r ho
    · exact absurd hw (by simp)
  · intro h
    cases h with
    | acquire o hp hf => rcases hp with hp | hp <;> exact ⟨none, by simp [step, hp, hf]⟩
    | proceed o hp hw => exact ⟨none, by simp [step, hp, hw]⟩
    | stop o hp hw => exact ⟨none, by simp [step, hp, hw]⟩
    | passOn o c d s₁ hp hr hs =>
      obtain ⟨w, hw⟩ := (signal_iff code).mpr hs
      exact ⟨w, by simp [step, hp, hr, hw]⟩
    | wait o hp => exact ⟨none, by simp [step, hp]⟩
    | spin o hp => exact ⟨none, by simp [step, hp]⟩
    | body o hp => exact ⟨none, by simp [step, hp]⟩
    | notify o r c s₁ hp hn hs =>
      obtain ⟨w, hw⟩ := (signal_iff code).mpr hs
      exact ⟨w, by simp [step, hp, hn, hw]⟩
    | release o r hp => exact ⟨none, by simp [step, hp]⟩

end Steps

/-! ## The open system -/

section System

variable [DecidableEq ι] [DecidableEq κ] (code : ο → Proc κ σ ρ) (env : σ → σ → Prop)

/-- **A step of the open system**: a thread's own step, a spurious wake-up, a call, the caller's
taking the result, a write outside the mutex, a broadcast. -/
inductive Step (s : State ι ο σ ρ) : State ι ο σ ρ → Prop
  | move (t : ι) (s' : State ι ο σ ρ) (hm : Move code s t s') : Step s s'
  | spurious (t : ι) (o : ο) (hp : s.phase t = .blocked o) : Step s (s.goto t (.woken o))
  | call (t : ι) (o : ο) (hp : s.phase t = .idle) : Step s (s.goto t (.lock o))
  | collect (t : ι) (o : ο) (r : ρ) (hp : s.phase t = .returned o r) : Step s (s.goto t .idle)
  | write (v : σ) (hv : env s.shared v) : Step s { s with shared := v }
  | broadcast (c : κ) : Step s (s.wakeAll code c)

/-- The monitor over the initial value `v`. -/
def system (v : σ) : System (State ι ο σ ρ) where
  init := fun s => s = .start v
  next := Step code env

end System

end SystemProgramming.Lib.Monitor
