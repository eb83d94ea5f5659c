import Mathlib.Data.List.TakeWhile

/-!
# Cursors into a buffer

A pointer into a buffer is what the buffer holds from there on, so reading through it can fail: at
the end there is nothing left, and an access there is outside the buffer. `scanWhile` is the loop
`while (p(*s)) s++`.

* `scanWhile_append`: the loop stops at the first byte that fails the condition.
* `exists_stop`: there is one as soon as the buffer holds a byte that fails it, such as the
  terminator of a string.
* `scanWhile_extend`: what follows the place where the loop stops does not matter.
* `append_cons_inj`: a list has only one first element that fails a condition.
-/

namespace SystemProgramming.Lib

variable {β : Type}

/-- `*s`. -/
def deref (s : List β) : Option β := s.head?

/-- The loop `while (p(*s)) s++`: what it has passed over, and where `s` points afterwards. -/
def scanWhile (p : β → Bool) : List β → Option (List β × List β)
  | [] => none
  | b :: s =>
    if p b then (scanWhile p s).map fun r => (b :: r.1, r.2)
    else some ([], b :: s)

variable {p : β → Bool} {u w : List β}

/-- **The loop stops at the first byte that fails the condition.** -/
theorem scanWhile_append {b : β} (hu : ∀ x ∈ u, p x = true) (hb : p b = false)
    (w : List β) : scanWhile p (u ++ b :: w) = some (u, b :: w) := by
  induction u with
  | nil => simp [scanWhile, hb]
  | cons x u ih =>
    rw [List.cons_append, scanWhile, if_pos (hu x List.mem_cons_self),
      ih fun y hy => hu y (List.mem_cons_of_mem x hy)]
    rfl

/-- The loop on a cursor splits what the cursor points to. -/
theorem eq_of_scanWhile {s : List β} (h : scanWhile p s = some (u, w)) : s = u ++ w := by
  induction s generalizing u with
  | nil => exact absurd h (by simp [scanWhile])
  | cons b s ih =>
    rw [scanWhile] at h
    split_ifs at h with hb
    · obtain ⟨r, hr, he⟩ := Option.map_eq_some_iff.mp h
      obtain ⟨rfl, rfl⟩ := Prod.mk.inj he
      rw [List.cons_append, ← ih hr]
    · obtain ⟨rfl, rfl⟩ := Prod.mk.inj (Option.some.inj h)
      rfl

/-- What follows the place where the loop stops does not matter. -/
theorem scanWhile_extend {s : List β} (h : scanWhile p s = some (u, w)) (t : List β) :
    scanWhile p (s ++ t) = some (u, w ++ t) := by
  induction s generalizing u with
  | nil => exact absurd h (by simp [scanWhile])
  | cons b s ih =>
    rw [scanWhile] at h
    rw [List.cons_append, scanWhile]
    split_ifs at h ⊢ with hb
    · obtain ⟨r, hr, he⟩ := Option.map_eq_some_iff.mp h
      obtain ⟨rfl, rfl⟩ := Prod.mk.inj he
      rw [ih hr]
      rfl
    · obtain ⟨rfl, rfl⟩ := Prod.mk.inj (Option.some.inj h)
      rfl

/-- Where the loop stops, if the buffer holds a byte that fails the condition. -/
theorem exists_stop {s : List β} {c : β} (hc : c ∈ s) (hp : p c = false) :
    ∃ u b w, s = u ++ b :: w ∧ (∀ x ∈ u, p x = true) ∧ p b = false := by
  induction s with
  | nil => exact absurd hc List.not_mem_nil
  | cons a s ih =>
    cases ha : p a with
    | false => exact ⟨[], a, s, rfl, by simp, ha⟩
    | true =>
      have hne : c ≠ a := by
        rintro rfl
        exact absurd (hp.symm.trans ha) (by simp)
      obtain ⟨u, b, w, rfl, hu, hb⟩ := ih ((List.mem_cons.mp hc).resolve_left hne)
      exact ⟨a :: u, b, w, rfl, List.forall_mem_cons.mpr ⟨ha, hu⟩, hb⟩

/-- Cutting a list at its first element that fails `p`. -/
theorem append_cons_inj {x y : List β} {a b : β} {s t : List β}
    (hx : ∀ c ∈ x, p c = true) (hy : ∀ c ∈ y, p c = true) (ha : p a = false) (hb : p b = false)
    (h : x ++ a :: s = y ++ b :: t) : x = y ∧ a :: s = b :: t := by
  have hcut : ∀ {z : List β} {e : β} {u : List β}, (∀ c ∈ z, p c = true) → p e = false →
      (z ++ e :: u).takeWhile p = z := fun hz he => by
    rw [List.takeWhile_append_of_pos hz, List.takeWhile_cons_of_neg (by simp [he]), List.append_nil]
  have hxy : x = y := by rw [← hcut hx ha (u := s), h, hcut hy hb]
  subst hxy
  exact ⟨rfl, List.append_cancel_left h⟩

end SystemProgramming.Lib
