import Mathlib.Data.List.Nodup
import Mathlib.Logic.Function.Basic

/-!
# Custody of tokens

Agents that hold at most one token each, and a queue through which they pass tokens on. `Custody`
says that every token is in one place only: `place` names it, and a function has one value. The
moves are the four things an agent can do: get a token from outside, put its token into the queue,
take the first one of the queue, and give its token away.
-/

namespace SystemProgramming.Lib

/-- Where a token is. -/
inductive Place (κ : Type)
  | agent (t : κ)
  | queue

variable {κ τ : Type}

/-- **Every token is in one place**, the one that `place` names. -/
structure Custody (has : κ → Option τ) (queue : List τ) (place : τ → Option (Place κ)) : Prop where
  agent_iff : ∀ t x, has t = some x ↔ place x = some (.agent t)
  mem_queue : ∀ x, x ∈ queue ↔ place x = some .queue
  nodup : queue.Nodup

theorem custody_empty : Custody (fun _ : κ => (none : Option τ)) [] fun _ => none where
  agent_iff := fun t x => by simp
  mem_queue := fun x => by simp
  nodup := List.nodup_nil

namespace Custody

variable {has : κ → Option τ} {queue rest : List τ} {place : τ → Option (Place κ)}
variable {t u : κ} {x y : τ}

/-- Two agents never hold one token. -/
theorem agent_unique (h : Custody has queue place) (ht : has t = some x) (hu : has u = some x) :
    t = u := by
  have hplace := ((h.agent_iff t x).mp ht).symm.trans ((h.agent_iff u x).mp hu)
  exact Place.agent.inj (Option.some.inj hplace)

variable [DecidableEq κ] [DecidableEq τ]

/-- The agents after a move of agent `t`, which had `x` or nothing and now has it or nothing. -/
theorem agent_move (h : Custody has queue place) {a : Option τ} {p : Option (Place κ)}
    (hold : ∀ y, has t = some y → y = x) (hx : ∀ u, u ≠ t → has u ≠ some x)
    (ha : ∀ y, a = some y ↔ y = x ∧ p = some (.agent t)) (hp : ∀ u, u ≠ t → p ≠ some (.agent u))
    (u : κ) (y : τ) :
    Function.update has t a u = some y ↔ Function.update place x p y = some (.agent u) := by
  by_cases hut : u = t
  · subst hut
    rw [Function.update_self, ha]
    by_cases hyx : y = x
    · rw [hyx, Function.update_self]
      exact ⟨fun hr => hr.2, fun hr => ⟨rfl, hr⟩⟩
    · rw [Function.update_of_ne hyx, ← h.agent_iff]
      exact iff_of_false (fun hr => hyx hr.1) fun hr => hyx (hold y hr)
  · rw [Function.update_of_ne hut]
    by_cases hyx : y = x
    · rw [hyx, Function.update_self]
      exact iff_of_false (hx u hut) (hp u hut)
    · rw [Function.update_of_ne hyx]
      exact h.agent_iff u y

/-- An agent gets a new token. -/
theorem give (h : Custody has queue place) (ht : has t = none) (hx : place x = none) :
    Custody (Function.update has t (some x)) queue
      (Function.update place x (some (.agent t))) where
  agent_iff := h.agent_move (fun y hy => absurd (ht.symm.trans hy) (by simp))
    (fun u _ hu => absurd (hx.symm.trans ((h.agent_iff u x).mp hu)) (by simp))
    (fun y => ⟨fun hy => ⟨(Option.some.inj hy).symm, rfl⟩, fun hy => congrArg some hy.1.symm⟩)
    fun u hu he => hu (Place.agent.inj (Option.some.inj he)).symm
  mem_queue := fun y => by
    by_cases hyx : y = x
    · rw [hyx, Function.update_self, h.mem_queue, hx]
      simp
    · rw [Function.update_of_ne hyx]
      exact h.mem_queue y
  nodup := h.nodup

/-- An agent puts its token into the queue. -/
theorem put (h : Custody has queue place) (ht : has t = some x) :
    Custody (Function.update has t none) (queue ++ [x])
      (Function.update place x (some .queue)) where
  agent_iff := h.agent_move (fun y hy => (Option.some.inj (ht.symm.trans hy)).symm)
    (fun u hu hux => hu (h.agent_unique hux ht)) (fun y => by simp) fun u _ => by simp
  mem_queue := fun y => by
    by_cases hyx : y = x
    · rw [hyx, Function.update_self]
      simp
    · rw [Function.update_of_ne hyx, ← h.mem_queue y]
      simp [hyx]
  nodup := by
    have hx : x ∉ queue := fun hmem =>
      absurd (((h.agent_iff t x).mp ht).symm.trans ((h.mem_queue x).mp hmem)) (by simp)
    exact List.nodup_append.mpr ⟨h.nodup, List.nodup_singleton x, fun y hy z hz he =>
      hx (List.mem_singleton.mp hz ▸ he ▸ hy)⟩

/-- An agent takes the first token of the queue. -/
theorem take (h : Custody has (x :: rest) place) (ht : has t = none) :
    Custody (Function.update has t (some x)) rest
      (Function.update place x (some (.agent t))) where
  agent_iff := h.agent_move (fun y hy => absurd (ht.symm.trans hy) (by simp))
    (fun u _ hu => by
      have hplace := (h.mem_queue x).mp List.mem_cons_self
      exact absurd (((h.agent_iff u x).mp hu).symm.trans hplace) (by simp))
    (fun y => ⟨fun hy => ⟨(Option.some.inj hy).symm, rfl⟩, fun hy => congrArg some hy.1.symm⟩)
    fun u hu he => hu (Place.agent.inj (Option.some.inj he)).symm
  mem_queue := fun y => by
    by_cases hyx : y = x
    · rw [hyx, Function.update_self]
      exact iff_of_false (List.nodup_cons.mp h.nodup).1 (by simp)
    · rw [Function.update_of_ne hyx, ← h.mem_queue y]
      simp [hyx]
  nodup := (List.nodup_cons.mp h.nodup).2

/-- An agent gives its token away. -/
theorem drop (h : Custody has queue place) (ht : has t = some x) :
    Custody (Function.update has t none) queue (Function.update place x none) where
  agent_iff := h.agent_move (fun y hy => (Option.some.inj (ht.symm.trans hy)).symm)
    (fun u hu hux => hu (h.agent_unique hux ht)) (fun y => by simp) fun u _ => by simp
  mem_queue := fun y => by
    by_cases hyx : y = x
    · rw [hyx, Function.update_self, h.mem_queue, (h.agent_iff t x).mp ht]
      simp
    · rw [Function.update_of_ne hyx]
      exact h.mem_queue y
  nodup := h.nodup

end Custody

end SystemProgramming.Lib
