import Mathlib.Data.List.Sort
import SystemProgramming.Lib.Sorting

/-!
# Inserting into an ordered list

`List.orderedInsert` with a comparator `less` puts an element before the first one that it is less
than, so behind those that compare equal to it.

* `ordered_insertOrdered`, `stable_insertOrdered`: the list stays ordered, and the element is
  the last of those that compare equal to it.
* `Ordered.eq_of_stable`: an order and the order of the ties decide a list. So all stable sorts are
  the same function, and `insertAll`, which inserts one element after the other, is one of them
  (`insertAll_eq`).
-/

namespace SystemProgramming.Lib

variable {α : Type} {less : α → α → Bool}

/-! ## Ties -/

theorem StrictWeak.ties_self (h : StrictWeak less) (a : α) : ties less a a = true := by
  simp [ties, h.irrefl a]

/-- The order backwards. -/
theorem StrictWeak.flip (h : StrictWeak less) : StrictWeak fun a b => less b a :=
  ⟨fun a b => h.asymm b a, fun a b c hba hcb => h.trans c b a hcb hba⟩

/-- What compares equal to one of two ties compares equal to the other. -/
theorem StrictWeak.ties_congr (h : StrictWeak less) {a b : α} (hab : ties less a b = true) (x : α) :
    ties less x a = ties less x b := by
  have hab' : less a b = false ∧ less b a = false := by simpa [ties] using hab
  rw [Bool.eq_iff_iff]
  simp only [ties, Bool.and_eq_true, Bool.not_eq_true']
  constructor
  · rintro ⟨hxa, hax⟩
    exact ⟨h.trans b a x hab'.1 hxa, h.trans x a b hax hab'.2⟩
  · rintro ⟨hxb, hbx⟩
    exact ⟨h.trans a b x hab'.2 hxb, h.trans x b a hbx hab'.1⟩

/-- The first element is no greater than the others. -/
theorem Ordered.head_le (h : StrictWeak less) {a b : α} {l : List α} (ho : Ordered less (a :: l))
    (hb : b ∈ a :: l) : less b a = false := by
  rcases List.mem_cons.mp hb with rfl | hb
  · exact h.irrefl b
  · exact (List.pairwise_cons.mp ho).1 b hb

/-- Lists with the same ties have the same elements. -/
theorem Stable.mem_iff (h : StrictWeak less) {l l' : List α} (hs : Stable less l l') (a : α) :
    a ∈ l' ↔ a ∈ l := by
  have := congrArg (a ∈ ·) (hs a)
  simpa [List.mem_filter, h.ties_self a] using this

/-- **The order and the order of the ties decide a list.** -/
theorem Ordered.eq_of_stable (h : StrictWeak less) {l m : List α} (hl : Ordered less l)
    (hm : Ordered less m) (hs : Stable less l m) : l = m := by
  induction l generalizing m with
  | nil =>
    cases m with
    | nil => rfl
    | cons b m => exact absurd ((hs.mem_iff h b).mp List.mem_cons_self) (by simp)
  | cons a l ih =>
    cases m with
    | nil => exact absurd ((hs.mem_iff h a).mpr List.mem_cons_self) (by simp)
    | cons b m =>
      -- each head is in the other list, so neither is less
      have hab : less a b = false := hm.head_le h ((hs.mem_iff h a).mpr List.mem_cons_self)
      have hba : less b a = false := hl.head_le h ((hs.mem_iff h b).mp List.mem_cons_self)
      have htie : ties less a b = true := by simp [ties, hab, hba]
      have hheads := hs a
      rw [List.filter_cons_of_pos htie, List.filter_cons_of_pos (h.ties_self a)] at hheads
      obtain rfl := (List.cons.inj hheads).1
      congr 1
      refine ih (List.pairwise_cons.mp hl).2 (List.pairwise_cons.mp hm).2 fun x => ?_
      have hx := hs x
      by_cases hxa : ties less x b = true
      · rw [List.filter_cons_of_pos hxa, List.filter_cons_of_pos hxa] at hx
        exact (List.cons.inj hx).2
      · rwa [List.filter_cons_of_neg hxa, List.filter_cons_of_neg hxa] at hx

/-- An ordered list without ties is ascending. -/
theorem ascending_of_filter (h : StrictWeak less) {l : List α} (ho : Ordered less l)
    (hone : ∀ x, (l.filter (ties less x)).length ≤ 1) :
    l.Pairwise fun a b => less a b = true := by
  induction l with
  | nil => exact .nil
  | cons a l ih =>
    obtain ⟨hhead, hrest⟩ := List.pairwise_cons.mp ho
    refine List.pairwise_cons.mpr ⟨fun b hb => ?_, ih hrest fun x => ?_⟩
    · by_contra hab
      have htie : ties less a b = true := by
        simp [ties, hhead b hb, Bool.eq_false_iff.mpr hab]
      have hlen := hone a
      have hmem : b ∈ l.filter (ties less a) := List.mem_filter.mpr ⟨hb, htie⟩
      rw [List.filter_cons_of_pos (h.ties_self a), List.length_cons] at hlen
      exact absurd (List.length_pos_of_mem hmem) (by omega)
    · exact Nat.le_trans ((List.sublist_cons_self a l).filter _).length_le (hone x)

/-! ## Insertion -/

/-- `List.orderedInsert` by a comparator. -/
def insertOrdered (less : α → α → Bool) (a : α) (l : List α) : List α :=
  l.orderedInsert (fun a b => less a b = true) a

theorem insertOrdered_cons (a b : α) (l : List α) :
    insertOrdered less a (b :: l) =
      if less a b = true then a :: b :: l else b :: insertOrdered less a l := rfl

theorem insertOrdered_perm (a : α) (l : List α) : (insertOrdered less a l).Perm (a :: l) :=
  List.perm_orderedInsert _ a l

/-- **An ordered list** stays ordered. -/
theorem ordered_insertOrdered (h : StrictWeak less) (a : α) {l : List α} (ho : Ordered less l) :
    Ordered less (insertOrdered less a l) := by
  induction l with
  | nil => exact List.pairwise_singleton ..
  | cons b l ih =>
    have hrest := (List.pairwise_cons.mp ho).2
    rw [insertOrdered_cons]
    split_ifs with hab
    · refine List.pairwise_cons.mpr ⟨fun c hc => ?_, ho⟩
      exact h.trans a b c (h.asymm a b hab) (ho.head_le h hc)
    · refine List.pairwise_cons.mpr ⟨fun c hc => ?_, ih hrest⟩
      rcases List.mem_cons.mp ((insertOrdered_perm a l).mem_iff.mp hc) with rfl | hc
      · simpa using hab
      · exact ho.head_le h (List.mem_cons_of_mem b hc)

/-- **The inserted element** comes last among those that compare equal to it. -/
theorem stable_insertOrdered (h : StrictWeak less) (a : α) {l : List α} (ho : Ordered less l) :
    Stable less (l ++ [a]) (insertOrdered less a l) := by
  intro x
  rw [List.filter_append]
  induction l with
  | nil => rfl
  | cons b l ih =>
    have hrest := (List.pairwise_cons.mp ho).2
    rw [insertOrdered_cons]
    split_ifs with hab
    · by_cases hx : ties less x a = true
      · rw [filter_ties_eq_nil h ho hab hx, List.filter_cons_of_pos hx,
          List.filter_cons_of_pos hx, filter_ties_eq_nil h ho hab hx]
        rfl
      · rw [List.filter_cons_of_neg hx, List.filter_cons_of_neg hx]
        exact (List.append_nil _).symm
    · by_cases hx : ties less x b = true
      · rw [List.filter_cons_of_pos hx, List.filter_cons_of_pos hx, ih hrest]
        rfl
      · rw [List.filter_cons_of_neg hx, List.filter_cons_of_neg hx, ih hrest]

/-- The elements of `l`, inserted one after the other. -/
def insertAll (less : α → α → Bool) (l : List α) : List α :=
  l.foldl (fun m a => insertOrdered less a m) []

/-- Inserting after a prefix has been sorted. -/
theorem foldl_insertOrdered_spec (h : StrictWeak less) (l : List α) {done m : List α}
    (hm : Ordered less m) (hs : Stable less done m) :
    Ordered less (l.foldl (fun m a => insertOrdered less a m) m) ∧
      Stable less (done ++ l) (l.foldl (fun m a => insertOrdered less a m) m) := by
  induction l generalizing done m with
  | nil => exact ⟨hm, by rwa [List.append_nil]⟩
  | cons a l ih =>
    have hs' : Stable less (done ++ [a]) (insertOrdered less a m) :=
      (hs.append (.refl [a])).trans (stable_insertOrdered h a hm)
    have := ih (ordered_insertOrdered h a hm) hs'
    rwa [List.append_assoc, List.singleton_append] at this

/-- **Inserting all elements is the stable sort.** -/
theorem insertAll_eq (h : StrictWeak less) {l m : List α} (hm : Ordered less m)
    (hs : Stable less l m) : insertAll less l = m := by
  obtain ⟨ho, hstable⟩ := foldl_insertOrdered_spec h l (m := []) .nil (.refl [])
  exact ho.eq_of_stable h hm fun x => (hs x).trans (hstable x).symm

end SystemProgramming.Lib
