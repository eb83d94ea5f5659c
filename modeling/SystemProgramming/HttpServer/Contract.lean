import Mathlib.Data.List.Basic

/-!
# The contract of the dispatchers

What `dispatch` promises for the connections the server has accepted, whichever dispatcher it is
linked with. A run leaves a log of two kinds of events: a thread or process calls `request_handler`,
or it closes a descriptor, each with the connection that the descriptor refers to.
-/

namespace SystemProgramming.HttpServer

/-- An event of a thread or process `agent`. A descriptor that is not open refers to nothing. -/
inductive Event (α : Type)
  | handled (agent : α) (conn : Option Nat)
  | closed (agent : α) (conn : Option Nat)

variable {α : Type}

/-- The event passes connection `c` to `request_handler`. -/
def Event.handles (c : Nat) : Event α → Bool
  | handled _ conn => conn == some c
  | closed _ _ => false

/-- How often connection `c` has been passed to `request_handler`. -/
def handledCount (log : List (Event α)) (c : Nat) : Nat := log.countP (Event.handles c)

/-- Nobody closes a connection before its own call of `request_handler` for it. -/
def Ordered (log : List (Event α)) : Prop :=
  log.Pairwise fun e e' => ∀ agent conn, e = .closed agent conn → e' ≠ .handled agent conn

/-- **The contract**: every connection has been passed to `request_handler` exactly once, no process
of the server holds it open, and no close came too early. -/
structure Contract (accepted : Nat) (log : List (Event α)) (held : Nat → Prop) : Prop where
  once : ∀ c, c < accepted → handledCount log c = 1
  released : ∀ c, c < accepted → ¬ held c
  ordered : Ordered log

theorem handledCount_handled (log : List (Event α)) (agent : α) (c d : Nat) :
    handledCount (log ++ [.handled agent (some c)]) d =
      handledCount log d + if d = c then 1 else 0 := by
  unfold handledCount
  rw [List.countP_append, List.countP_singleton]
  by_cases h : d = c
  · simp [Event.handles, h]
  · simp [Event.handles, h, Ne.symm h]

theorem handledCount_closed (log : List (Event α)) (agent : α) (conn : Option Nat) (d : Nat) :
    handledCount (log ++ [.closed agent conn]) d = handledCount log d := by
  unfold handledCount
  rw [List.countP_append, List.countP_singleton]
  simp [Event.handles]

theorem ordered_nil : Ordered ([] : List (Event α)) := List.Pairwise.nil

theorem Ordered.closed {log : List (Event α)} (h : Ordered log) (agent : α) (conn : Option Nat) :
    Ordered (log ++ [.closed agent conn]) := by
  refine List.pairwise_append.mpr ⟨h, List.pairwise_singleton .., fun e _ e' he' a x _ => ?_⟩
  rw [List.mem_singleton.mp he']
  simp

theorem Ordered.handled {log : List (Event α)} (h : Ordered log) {agent : α} {conn : Option Nat}
    (hno : .closed agent conn ∉ log) : Ordered (log ++ [.handled agent conn]) := by
  refine List.pairwise_append.mpr ⟨h, List.pairwise_singleton .., fun e he e' he' a x hx => ?_⟩
  rw [List.mem_singleton.mp he']
  intro heq
  obtain ⟨rfl, rfl⟩ := Event.handled.inj heq
  exact hno (hx ▸ he)

end SystemProgramming.HttpServer
