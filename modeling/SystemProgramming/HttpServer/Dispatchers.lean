import SystemProgramming.HttpServer.Dispatch
import SystemProgramming.HttpServer.Pool

/-!
# The four dispatchers together

`dispatch_contract` puts the results of `Dispatch.lean` and `Pool.lean` side by side. The handler of
a connection is lost when `fork` fails, since `dispatch` takes the `-1` for the parent's branch, and
when `pthread_create` fails, since `dispatch` does not look at what it returns.
-/

namespace SystemProgramming.HttpServer

open Lib

/-- A server in some state, linked with one of the four implementations of `dispatch`. -/
inductive Server (ι : Type)
  | immediate (kind : Dispatch.Kind) (s : Dispatch.State)
  | pool (s : Pool.State ι)

namespace Server

variable {ι : Type}

/-- The state is one of a run. -/
def Reachable [DecidableEq ι] : Server ι → Prop
  | immediate kind s => (Dispatch.system kind).Reachable s
  | pool s => Pool.system.Reachable s

/-- `dispatch` has returned for every connection, and every handler that was started is over. The
workers of the pool never end: the pool has done all that it does without a spurious wake-up. -/
def Quiet [DecidableEq ι] : Server ι → Prop
  | immediate _ s => s.Quiet
  | pool s => s.Quiet

/-- The server honours the contract. -/
def Honours : Server ι → Prop
  | immediate _ s => Contract s.accepted s.log s.Held
  | pool s => Contract s.accepted s.log s.Held

/-- The connections for which `fork` or `pthread_create` has failed. The pool starts nothing for a
connection. -/
def failed : Server ι → List Nat
  | immediate _ s => s.failed
  | pool _ => []

end Server

/-- **One contract for the four dispatchers**: it is honoured iff no `fork` and no `pthread_create`
has failed. -/
theorem dispatch_contract {ι : Type} [DecidableEq ι] [Nonempty ι] (server : Server ι)
    (h : server.Reachable) (hq : server.Quiet) : server.Honours ↔ server.failed = [] := by
  cases server with
  | immediate kind s => exact Dispatch.contract_iff h hq
  | pool s => exact iff_of_true (Pool.contract h hq) rfl

/-- A child handles a connection. -/
theorem exists_forked : ∃ s, (Dispatch.system .process).Reachable s ∧ s.Quiet ∧ s.accepted = 1 ∧
    s.failed = [] := by
  have step : ∀ {s s'}, (Dispatch.system .process).Reachable s → Dispatch.Work .process s s' →
      (Dispatch.system .process).Reachable s' := fun h hs => h.step (Or.inr hs)
  have h₀ : (Dispatch.system .process).Reachable .start := .start rfl
  have h₁ := h₀.step (Or.inl (.accept 4 rfl rfl))
  have h₂ := step h₁ (.fork 4 rfl rfl)
  have h₃ := step h₂ (.call 0 4 rfl)
  have h₄ := step h₃ (.parentClose 4 rfl)
  have h₅ := step h₄ (.handled 0 4 rfl)
  have h₆ := step h₅ (.closeChild 0 4 rfl rfl)
  refine ⟨_, step h₆ (.exit 0 rfl rfl), ⟨rfl, fun c => ?_⟩, rfl, rfl⟩
  by_cases hc : c = 0
  · subst hc
    exact Or.inr rfl
  · refine Or.inl ?_
    simp [Dispatch.State.goto, Dispatch.State.start, Dispatch.State.current, hc]

/-- A worker handles a connection. -/
theorem exists_pooled : ∃ s : Pool.State Unit, Pool.system.Reachable s ∧ s.Quiet ∧
    s.accepted = 1 := by
  have step : ∀ {s s' : Pool.State Unit}, Pool.system.Reachable s → Pool.Work s s' →
      Pool.system.Reachable s' := fun h hs => h.step (Or.inr hs)
  have h₀ : (Pool.system : System (Pool.State Unit)).Reachable .start := .start rfl
  have h₁ := h₀.step (Or.inl (.accept 4 rfl rfl rfl (by decide)))
  have h₂ := step h₁ (.dispatch 4 rfl rfl)
  have h₃ := step h₂ (.inner none (.pushLock 4 rfl rfl))
  have h₄ := step h₃ (.inner none (.pushCalloc 4 8 rfl rfl))
  have h₅ := step h₄ (.inner none (.pushSet 8 4 rfl))
  have h₆ := step h₅ (.inner none (.pushAppend 8 4 rfl))
  have h₇ := step h₆ (.inner none (.pushSize rfl))
  have h₈ := step h₇ (.inner none (.pushBroadcast rfl))
  have h₉ := step h₈ (.inner none (.pushUnlock rfl))
  have h₁₀ := step h₉ (.callPop () rfl rfl)
  have h₁₁ := step h₁₀ (.inner (some ()) (.popLock (Or.inl rfl) rfl))
  have h₁₂ := step h₁₁ (.inner (some ()) (.popTest rfl))
  have h₁₃ := step h₁₂ (.inner (some ()) (.popHead rfl))
  have h₁₄ := step h₁₃ (.inner (some ()) (.popSize 8 4 rfl))
  have h₁₅ := step h₁₄ (.inner (some ()) (.popDelete 8 4 rfl))
  have h₁₆ := step h₁₅ (.inner (some ()) (.popUnlock 8 4 rfl))
  have h₁₇ := step h₁₆ (.inner (some ()) (.popFree 8 4 rfl))
  have h₁₈ := step h₁₇ (.popReturn () 4 rfl)
  have h₁₉ := step h₁₈ (.call () 4 rfl)
  have h₂₀ := step h₁₉ (.handled () 4 rfl)
  have h₂₁ := step h₂₀ (.close () 4 rfl)
  refine ⟨_, h₂₁, Pool.quiet_of_released h₂₁ rfl rfl fun fd => ?_, rfl⟩
  by_cases hfd : fd = 4
  · subst hfd
    rfl
  · exact (Function.update_of_ne hfd _ _).trans (Function.update_of_ne hfd _ _)

/-- A child and a worker that handle one connection each. -/
theorem dispatch_contract_runs :
    (∃ s : Dispatch.State, s.accepted = 1 ∧ Contract s.accepted s.log s.Held) ∧
      ∃ s : Pool.State Unit, s.accepted = 1 ∧ Contract s.accepted s.log s.Held := by
  constructor
  · obtain ⟨s, h, hq, haccepted, hfailed⟩ := exists_forked
    exact ⟨s, haccepted, (dispatch_contract (ι := Unit) (.immediate .process s) h hq).mpr hfailed⟩
  · obtain ⟨s, h, hq, haccepted⟩ := exists_pooled
    exact ⟨s, haccepted, (dispatch_contract (.pool s) h hq).mpr rfl⟩

/-- **A `fork` or a `pthread_create` that fails.** The first connection is never handled. The server
with processes closes it, the one with threads keeps it open. -/
theorem dispatch_loses :
    ¬ (∀ server : Server Unit, server.Reachable → server.Quiet → server.Honours) ∧
    (∃ s, (Dispatch.system .process).Reachable s ∧ s.Quiet ∧ s.accepted = 1 ∧
      handledCount s.log 0 = 0 ∧ ¬ s.Held 0) ∧
    ∃ s, (Dispatch.system .thread).Reachable s ∧ s.Quiet ∧ s.accepted = 1 ∧
      handledCount s.log 0 = 0 ∧ s.Held 0 := by
  have hprocess : ∃ s, (Dispatch.system .process).Reachable s ∧ s.Quiet ∧ s.accepted = 1 ∧
      handledCount s.log 0 = 0 ∧ ¬ s.Held 0 := by
    have h₁ : (Dispatch.system .process).Reachable _ :=
      (System.Reachable.start rfl).step (Or.inl (.accept 4 rfl rfl))
    have h₂ := h₁.step (Or.inr (.forkFailed 4 rfl rfl))
    have h₃ := h₂.step (Or.inr (.parentClose 4 rfl))
    refine ⟨_, h₃, ⟨rfl, fun c => Or.inl rfl⟩, rfl, rfl, ?_⟩
    rintro (⟨fd, hfd⟩ | ⟨d, fd, hfd⟩)
    · by_cases hfd4 : fd = 4
      · subst hfd4
        exact absurd hfd (by simp)
      · exact absurd hfd (by simp [Dispatch.State.start, hfd4])
    · exact absurd hfd (by simp [Dispatch.State.start])
  refine ⟨fun hclaim => ?_, hprocess, ?_⟩
  · obtain ⟨s, h, hq, haccepted, hcount, -⟩ := hprocess
    have hone := (hclaim (.immediate .process s) h hq).once 0 (haccepted ▸ Nat.one_pos)
    exact absurd (hcount.symm.trans hone) (by decide)
  · have h₁ : (Dispatch.system .thread).Reachable _ :=
      (System.Reachable.start rfl).step (Or.inl (.accept 4 rfl rfl))
    have h₂ := h₁.step (Or.inr (.createFailed 4 rfl rfl))
    exact ⟨_, h₂, ⟨rfl, fun c => Or.inl rfl⟩, rfl, rfl, Or.inl ⟨4, rfl⟩⟩

end SystemProgramming.HttpServer
