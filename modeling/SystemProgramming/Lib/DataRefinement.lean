import Mathlib.Data.List.Basic

/-!
# Data refinement of partial operations

Operations that may have no result, on values and on states that stand for them. `R s a` says that
the state `s` stands for the value `a`.

* `Implements.bind`: one operation after the other.
* `Implements.foldl`: one operation for each member of a list, where the relation may count down
  what is left for further operations.
-/

namespace SystemProgramming.Lib

variable {σ τ α β ι : Type*}

/-- **The state operation implements the operation on values**: where there is a value, there is a
state, and it stands for the value. -/
def Implements (R : σ → α → Prop) (r : Option σ) (r' : Option α) : Prop :=
  ∀ a, r' = some a → ∃ s, r = some s ∧ R s a

namespace Implements

variable {R : σ → α → Prop} {r : Option σ} {r' : Option α}

theorem some {s : σ} {a : α} (h : R s a) : Implements R (some s) (some a) :=
  fun _ ha => ⟨s, rfl, Option.some.inj ha ▸ h⟩

theorem bind {S : τ → β → Prop} {f : σ → Option τ} {g : α → Option β} (h : Implements R r r')
    (hf : ∀ s a, R s a → Implements S (f s) (g a)) : Implements S (r.bind f) (r'.bind g) := by
  intro b hb
  obtain ⟨a, rfl, hg⟩ := Option.bind_eq_some_iff.mp hb
  obtain ⟨s, rfl, hs⟩ := h a rfl
  exact hf s a hs b hg

theorem map {S : τ → β → Prop} {f : σ → τ} {g : α → β} (h : Implements R r r')
    (hf : ∀ s a, R s a → S (f s) (g a)) : Implements S (r.map f) (r'.map g) := by
  intro b hb
  obtain ⟨a, rfl, rfl⟩ := Option.map_eq_some_iff.mp hb
  obtain ⟨s, rfl, hs⟩ := h a rfl
  exact ⟨f s, rfl, hf s a hs⟩

/-- **One operation for each member of a list.** Each of them takes one from what is left. -/
theorem foldl {R : Nat → σ → α → Prop} {f : σ → ι → Option σ} {g : α → ι → α}
    (hstep : ∀ n s a i, R (n + 1) s a → Implements (R n) (f s i) (Option.some (g a i)))
    (is : List ι) {n : Nat} {s : σ} {a : α} (h : R (is.length + n) s a) :
    Implements (R n) (is.foldl (fun r i => r.bind fun s => f s i) (Option.some s))
      (Option.some (is.foldl g a)) := by
  induction is generalizing s a with
  | nil =>
    rw [List.length_nil, Nat.zero_add] at h
    exact .some h
  | cons i is ih =>
    rw [List.length_cons, Nat.add_right_comm] at h
    obtain ⟨s', hs', h'⟩ := hstep _ s a i h _ rfl
    rw [List.foldl_cons, List.foldl_cons, Option.bind_some, hs']
    exact ih h'

end Implements

end SystemProgramming.Lib
