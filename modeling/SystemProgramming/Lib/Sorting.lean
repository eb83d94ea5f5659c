import Mathlib.Data.List.Basic
import Mathlib.Order.Basic

/-!
# Sorting by a comparison function

A comparator `less` in the manner of a C library: a Boolean function that is a strict weak order,
so that different elements may compare equal. `Ordered less l` says that no later element of `l`
is less than an earlier one, and `descents less l` counts the neighbours that are the wrong way
around, which is what a natural merge sort works off.

* `ordered_iff_descents`: looking at neighbours is enough.
* `ordered_merge`: merging two ordered lists, the first list first on ties, is ordered.
* `ordered_unique`: if elements that compare equal are equal, the order decides the list.
* `filter_ties_merge`: merging keeps the order of elements that compare equal (`Stable`).
-/

namespace SystemProgramming.Lib

variable {α : Type} {less : α → α → Bool}

/-- A strict weak order: "not less" the other way around is a preorder. -/
structure StrictWeak (less : α → α → Bool) : Prop where
  asymm : ∀ a b, less a b = true → less b a = false
  trans : ∀ a b c, less b a = false → less c b = false → less c a = false

/-- Nondecreasing. -/
def Ordered (less : α → α → Bool) (l : List α) : Prop := l.Pairwise fun a b => less b a = false

/-- Neighbours the wrong way around. -/
def descents (less : α → α → Bool) : List α → Nat
  | [] | [_] => 0
  | a :: b :: l => (if less b a then 1 else 0) + descents less (b :: l)

theorem descents_append_le (less : α → α → Bool) (m : List α) :
    ∀ l, descents less (l ++ m) ≤ descents less l + 1 + descents less m
  | [] => by simp [descents]
  | [a] => by
    cases m with
    | nil => simp [descents]
    | cons b m => simp only [List.singleton_append, descents]; split_ifs <;> omega
  | a :: b :: l => by
    have := descents_append_le less m (b :: l)
    simp only [List.cons_append, descents] at this ⊢
    omega

/-- **Neighbours decide.** -/
theorem ordered_iff_descents (h : StrictWeak less) :
    ∀ l, Ordered less l ↔ descents less l = 0
  | [] => by simp [Ordered, descents]
  | [a] => by simp [Ordered, descents]
  | a :: b :: l => by
    have ih := ordered_iff_descents h (b :: l)
    unfold Ordered at ih ⊢
    rw [descents, List.pairwise_cons, ih]
    constructor
    · rintro ⟨hall, h0⟩
      rw [hall b List.mem_cons_self, h0]
      rfl
    · intro h0
      have hab : less b a = false := by
        by_contra hb
        rw [if_pos (by simpa using hb)] at h0
        omega
      have h0' : descents less (b :: l) = 0 := by omega
      refine ⟨?_, h0'⟩
      intro c hc
      rcases List.mem_cons.mp hc with rfl | hc
      · exact hab
      · exact h.trans a b c hab ((List.pairwise_cons.mp (ih.mpr h0')).1 c hc)

/-- **Merging** keeps the order. -/
theorem ordered_merge (h : StrictWeak less) {l m : List α} (hl : Ordered less l)
    (hm : Ordered less m) : Ordered less (l.merge m fun a b => !less b a) := by
  have hle : ∀ {l : List α}, Ordered less l ↔ l.Pairwise fun a b => (!less b a) = true := by
    intro l
    unfold Ordered
    simp only [Bool.not_eq_true']
  rw [hle] at hl hm ⊢
  refine List.pairwise_merge (fun a b c hab hbc => ?_) (fun a b => ?_) _ _ hl hm
  · simp only [Bool.not_eq_true'] at hab hbc ⊢
    exact h.trans a b c hab hbc
  · cases hba : less b a with
    | false => rfl
    | true => rw [h.asymm b a hba]; rfl

/-- **The order decides the list**, if elements that compare equal are equal. -/
theorem ordered_unique {l m : List α} (hu : ∀ a ∈ l, ∀ b ∈ l, less a b = false →
    less b a = false → a = b) (hl : Ordered less l) (hm : Ordered less m) (hp : l.Perm m) : l = m :=
  List.Perm.eq_of_pairwise
    (fun a b ha hb hab hba => hu a ha b (hp.mem_iff.mpr hb) hba hab) hl hm hp

/-! ## Stability -/

/-- `a` compares equal to `x`. -/
def ties (less : α → α → Bool) (x a : α) : Bool := !less x a && !less a x

/-- **Elements that compare equal stand in the same order** in both lists. -/
def Stable (less : α → α → Bool) (l l' : List α) : Prop :=
  ∀ x, l'.filter (ties less x) = l.filter (ties less x)

theorem Stable.refl (l : List α) : Stable less l l := fun _ => rfl

theorem Stable.trans {l m n : List α} (h : Stable less l m) (h' : Stable less m n) :
    Stable less l n := fun x => (h' x).trans (h x)

theorem Stable.append {l l' m m' : List α} (h : Stable less l l') (h' : Stable less m m') :
    Stable less (l ++ m) (l' ++ m') := fun x => by
  rw [List.filter_append, List.filter_append, h x, h' x]

theorem StrictWeak.irrefl (h : StrictWeak less) (a : α) : less a a = false := by
  cases haa : less a a with
  | false => rfl
  | true => rw [← haa, h.asymm a a haa]

/-- Two elements that compare equal are not exchanged. -/
theorem Stable.pair {l l' : List α} (h : StrictWeak less) (hs : Stable less l l') {a b : α}
    (hab : less a b = false) (hba : less b a = false) (hl : [a, b].Sublist l) :
    [a, b].Sublist l' := by
  have hf : [a, b].filter (ties less a) = [a, b] := by simp [ties, hab, hba, h.irrefl a]
  have := hl.filter (ties less a)
  rw [hf, ← hs a] at this
  exact this.trans List.filter_sublist

/-- An element less than the head of an ordered list compares equal to nothing in the list. -/
theorem filter_ties_eq_nil (h : StrictWeak less) {a b x : α} {l : List α}
    (hl : Ordered less (a :: l)) (hba : less b a = true) (hb : ties less x b = true) :
    (a :: l).filter (ties less x) = [] := by
  have hxb : less x b = false ∧ less b x = false := by simpa [ties] using hb
  refine List.filter_eq_nil_iff.mpr fun c hc hcx => ?_
  have hxc : less x c = false ∧ less c x = false := by simpa [ties] using hcx
  have hca : less c a = false := by
    rcases List.mem_cons.mp hc with rfl | hc
    · exact h.irrefl c
    · exact (List.pairwise_cons.mp hl).1 c hc
  have hbc : less b c = false := h.trans c x b hxc.1 hxb.2
  exact absurd (h.trans a c b hca hbc) (by simp [hba])

/-- **Merging** puts the elements that compare equal to `x` one list after the other. -/
theorem filter_ties_merge (h : StrictWeak less) (x : α) {l m : List α} (hl : Ordered less l) :
    (l.merge m fun a b => !less b a).filter (ties less x) =
      l.filter (ties less x) ++ m.filter (ties less x) := by
  fun_induction List.merge l m (fun a b => !less b a) with
  | case1 m => rfl
  | case2 l => simp
  | case3 a l b m hab ih =>
    rw [List.filter_cons, ih (List.pairwise_cons.mp hl).2, List.filter_cons (x := a)]
    split_ifs <;> rfl
  | case4 a l b m hab ih =>
    have hba : less b a = true := by simpa using hab
    rw [List.filter_cons, ih hl]
    cases hb : ties less x b with
    | true => rw [if_pos rfl, filter_ties_eq_nil h hl hba hb, List.filter_cons_of_pos hb]; rfl
    | false => simp [hb]

end SystemProgramming.Lib
