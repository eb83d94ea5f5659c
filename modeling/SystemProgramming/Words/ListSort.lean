import SystemProgramming.Lib.Sorting

/-!
# `list_sort`

The natural merge sort of `list.c` on the sequence of a list's elements. Moving an element with
`list_splice` before another one is moving it in the sequence. An `ASSERT` that fails is `none`,
and so is running out of rounds, which `listSort` has as many of as there are elements and one
more.

* `sortPass_spec`: a pass permutes the elements and leaves at most half as many runs.
* `listSort_spec`: the sort ends without a failing `ASSERT`, in a permutation in order.
* `listSort_stable`: elements that compare equal stay in their order.
-/

namespace SystemProgramming.Words

open Lib

variable {α : Type} (less : α → α → Bool)

/-- `is_sorted`. -/
def isSorted : List α → Bool
  | [] | [_] => true
  | a :: b :: l => !less b a && isSorted (b :: l)

/-- `find_end_of_run`: the run at the front, and what follows it. -/
def findEndOfRun : List α → List α × List α
  | [] => ([], [])
  | [a] => ([a], [])
  | a :: b :: l =>
    if !less b a then (a :: (findEndOfRun (b :: l)).1, (findEndOfRun (b :: l)).2) else ([a], b :: l)

/-- The loop of `inplace_merge`, on what is left of the two runs. -/
def mergeLoop : List α → List α → List α
  | [], bs => bs
  | as, [] => as
  | a :: as, b :: bs =>
    if !less b a then a :: mergeLoop as (b :: bs) else b :: mergeLoop (a :: as) bs

/-- `inplace_merge`. -/
def inplaceMerge (as bs : List α) : Option (List α) :=
  if isSorted less as && isSorted less bs then some (mergeLoop less as bs) else none

theorem findEndOfRun_append : ∀ l, (findEndOfRun less l).1 ++ (findEndOfRun less l).2 = l
  | [] => rfl
  | [_] => rfl
  | a :: b :: l => by
    rw [findEndOfRun]
    split_ifs
    · rw [List.cons_append, findEndOfRun_append (b :: l)]
    · rfl

theorem findEndOfRun_ne_nil : ∀ l, l ≠ [] → (findEndOfRun less l).1 ≠ []
  | [], h => absurd rfl h
  | [_], _ => by simp [findEndOfRun]
  | a :: b :: l, _ => by
    rw [findEndOfRun]
    split_ifs <;> simp

theorem length_findEndOfRun_lt {l : List α} (h : l ≠ []) :
    (findEndOfRun less l).2.length < l.length := by
  have h1 := congrArg List.length (findEndOfRun_append less l)
  have h2 := List.length_pos_iff.mpr (findEndOfRun_ne_nil less l h)
  rw [List.length_append] at h1
  omega

/-- One pass of `list_sort` over the list from `a0` on: the number of runs it leaves, and the
list. -/
def sortPass (l : List α) : Option (Nat × List α) :=
  if _h : l = [] then some (0, [])
  else
    let run := findEndOfRun less l
    if _h' : run.2 = [] then some (1, run.1)
    else
      let run' := findEndOfRun less run.2
      (inplaceMerge less run.1 run'.1).bind fun merged =>
        (sortPass run'.2).map fun r => (r.1 + 1, merged ++ r.2)
  termination_by l.length
  decreasing_by
    exact Nat.lt_trans (length_findEndOfRun_lt _ _h') (length_findEndOfRun_lt _ _h)

/-- The loop of `list_sort`, for at most `rounds` passes, with the `ASSERT` after it. -/
def sortLoop : Nat → List α → Option (List α)
  | 0, _ => none
  | rounds + 1, l =>
    (sortPass less l).bind fun r =>
      if r.1 > 1 then sortLoop rounds r.2
      else if isSorted less r.2 then some r.2 else none

/-- `list_sort`. -/
def listSort (l : List α) : Option (List α) := sortLoop less (l.length + 1) l

variable {less}

/-! ## Runs -/

theorem isSorted_iff : ∀ l, isSorted less l = true ↔ descents less l = 0
  | [] => by simp [isSorted, descents]
  | [_] => by simp [isSorted, descents]
  | a :: b :: l => by
    rw [isSorted, descents, Bool.and_eq_true, isSorted_iff (b :: l)]
    cases less b a <;> simp

theorem descents_findEndOfRun : ∀ l, descents less (findEndOfRun less l).1 = 0
  | [] => rfl
  | [_] => rfl
  | [a, b] => by
    rw [findEndOfRun]
    split_ifs with h
    · simpa [findEndOfRun, descents] using h
    · rfl
  | a :: b :: c :: l => by
    have ih := descents_findEndOfRun (b :: c :: l)
    rw [findEndOfRun]
    split_ifs with h
    · have hb : ∃ r, (findEndOfRun less (b :: c :: l)).1 = b :: r := by
        rw [findEndOfRun]
        split_ifs <;> exact ⟨_, rfl⟩
      obtain ⟨r, hr⟩ := hb
      have hba : less b a = false := by simpa using h
      rw [hr] at ih ⊢
      simpa [descents, hba] using ih
    · rfl

/-- A run ends where there is a descent. -/
theorem descents_rest : ∀ l, (findEndOfRun less l).2 ≠ [] →
    descents less l = 1 + descents less (findEndOfRun less l).2
  | [], h => absurd rfl h
  | [_], h => absurd rfl h
  | a :: b :: l, h => by
    rw [findEndOfRun] at h ⊢
    split_ifs at h ⊢ with hab
    · have hba : less b a = false := by simpa using hab
      rw [descents, descents_rest (b :: l) h, hba]
      simp
    · have hba : less b a = true := by simpa using hab
      simp [descents, hba]

theorem mergeLoop_eq (as bs : List α) :
    mergeLoop less as bs = as.merge bs fun a b => !less b a := by
  fun_induction mergeLoop less as bs with
  | case1 bs => simp
  | case2 as => simp
  | case3 a as b bs h ih => rw [List.cons_merge_cons, if_pos h, ih]
  | case4 a as b bs h ih => rw [List.cons_merge_cons, if_neg h, ih]

theorem mergeLoop_perm (as bs : List α) : (mergeLoop less as bs).Perm (as ++ bs) := by
  rw [mergeLoop_eq]
  exact List.merge_perm_append _

/-- The `ASSERT`s of `inplace_merge` hold, and its result is a run. -/
theorem inplaceMerge_runs (h : StrictWeak less) {as bs : List α} (ha : descents less as = 0)
    (hb : descents less bs = 0) :
    inplaceMerge less as bs = some (mergeLoop less as bs) ∧
      descents less (mergeLoop less as bs) = 0 := by
  constructor
  · unfold inplaceMerge
    rw [(isSorted_iff as).mpr ha, (isSorted_iff bs).mpr hb]
    rfl
  · rw [← ordered_iff_descents h] at ha hb ⊢
    rw [mergeLoop_eq]
    exact ordered_merge h ha hb

/-! ## The sort -/

/-- **One pass** succeeds, permutes the elements, and leaves at most `n` runs, about half of what
the list had. -/
theorem sortPass_spec (h : StrictWeak less) (l : List α) :
    ∃ n l', sortPass less l = some (n, l') ∧ l'.Perm l ∧ (n = 0 ↔ l = []) ∧
      descents less l' ≤ n - 1 ∧ 2 * n ≤ descents less l + 2 := by
  fun_induction sortPass less l with
  | case1 => exact ⟨0, [], rfl, .refl _, by simp, by simp [descents], by simp⟩
  | case2 l hl run hrest =>
    have happ := findEndOfRun_append less l
    rw [show (findEndOfRun less l).2 = [] from hrest, List.append_nil] at happ
    refine ⟨1, run.1, rfl, ?_, by simp [hl], ?_, by omega⟩
    · rw [← happ]
    · exact Nat.le_of_eq (descents_findEndOfRun l)
  | case3 l hl run hrest run' ih =>
    obtain ⟨n, l', hs, hp, hnil, hd, hn⟩ := ih
    obtain ⟨hmerge, hd0⟩ := inplaceMerge_runs h (descents_findEndOfRun l)
      (descents_findEndOfRun run.2)
    refine ⟨n + 1, mergeLoop less run.1 run'.1 ++ l', by rw [hmerge, hs]; rfl, ?_, by simp [hl],
      ?_, ?_⟩
    · have happ : run.1 ++ run'.1 ++ run'.2 = l := by
        rw [List.append_assoc, findEndOfRun_append less run.2, findEndOfRun_append less l]
      exact happ ▸ (mergeLoop_perm _ _).append hp
    · -- the merged run and the rest meet in one more descent at most, and in none at the end
      by_cases hn0 : n = 0
      · obtain rfl : l' = [] := by
          have := hnil.mp hn0
          rw [this] at hp
          exact hp.eq_nil
        rw [List.append_nil, hd0]
        omega
      · have := descents_append_le less l' (mergeLoop less run.1 run'.1)
        rw [hd0] at this
        omega
    · have h1 : descents less l = 1 + descents less run.2 := descents_rest l hrest
      by_cases hrest' : run'.2 = []
      · have := hnil.mpr hrest'
        omega
      · have h2 : descents less run.2 = 1 + descents less run'.2 := descents_rest run.2 hrest'
        omega

/-- The passes end: each leaves fewer descents, unless there are none. -/
theorem sortLoop_spec (h : StrictWeak less) (rounds : Nat) (l : List α)
    (hr : descents less l < rounds) :
    ∃ l', sortLoop less rounds l = some l' ∧ l'.Perm l ∧ Ordered less l' := by
  induction rounds generalizing l with
  | zero => omega
  | succ rounds ih =>
    obtain ⟨n, l₁, hs, hp, -, hd, hn⟩ := sortPass_spec h l
    rw [sortLoop, hs]
    by_cases hn1 : n > 1
    · obtain ⟨l', hl', hp', ho⟩ := ih l₁ (by omega)
      exact ⟨l', by rw [Option.bind_some, if_pos hn1, hl'], hp'.trans hp, ho⟩
    · have h0 : descents less l₁ = 0 := by omega
      refine ⟨l₁, ?_, hp, (ordered_iff_descents h l₁).mpr h0⟩
      rw [Option.bind_some, if_neg hn1, if_pos ((isSorted_iff l₁).mpr h0)]

theorem descents_le_length : ∀ l, descents less l ≤ l.length
  | [] => Nat.le_refl _
  | [_] => by simp [descents]
  | a :: b :: l => by
    have := descents_le_length (b :: l)
    simp only [descents, List.length_cons] at this ⊢
    split_ifs <;> omega

/-- **`list_sort` sorts**: no `ASSERT` fails, the passes end, and the result is a permutation in
order. -/
theorem listSort_spec (h : StrictWeak less) (l : List α) :
    ∃ l', listSort less l = some l' ∧ l'.Perm l ∧ Ordered less l' :=
  sortLoop_spec h _ l (Nat.lt_succ_of_le (descents_le_length l))

/-- More rounds than it takes make no difference. -/
theorem sortLoop_mono {n m : Nat} (hnm : n ≤ m) {l l' : List α}
    (hs : sortLoop less n l = some l') : sortLoop less m l = some l' := by
  induction n generalizing m l with
  | zero => exact absurd hs (by simp [sortLoop])
  | succ n ih =>
    obtain ⟨m, rfl⟩ : ∃ k, m = k + 1 := ⟨m - 1, by omega⟩
    rw [sortLoop, Option.bind_eq_some_iff] at hs
    obtain ⟨r, hr, hs⟩ := hs
    rw [sortLoop, hr, Option.bind_some]
    split_ifs at hs ⊢
    · exact ih (by omega) hs
    · exact hs

/-! ## Stability -/

/-- Merging a run of the list with the one after it. -/
theorem mergeLoop_stable (h : StrictWeak less) {as bs : List α} (ha : descents less as = 0) :
    Stable less (as ++ bs) (mergeLoop less as bs) := fun x => by
  rw [mergeLoop_eq, filter_ties_merge h x ((ordered_iff_descents h as).mpr ha),
    List.filter_append]

theorem sortPass_stable (h : StrictWeak less) (l : List α) :
    ∀ r, sortPass less l = some r → Stable less l r.2 := by
  fun_induction sortPass less l with
  | case1 =>
    rintro r hs
    obtain rfl := Option.some.inj hs
    exact .refl []
  | case2 l hl run hrest =>
    rintro r hs
    obtain rfl := Option.some.inj hs
    have happ := findEndOfRun_append less l
    rw [show (findEndOfRun less l).2 = [] from hrest, List.append_nil] at happ
    rw [show run.1 = l from happ]
    exact .refl l
  | case3 l hl run hrest run' ih =>
    rintro r hs
    obtain ⟨hmerge, -⟩ := inplaceMerge_runs h (descents_findEndOfRun l)
      (descents_findEndOfRun run.2)
    rw [hmerge, Option.bind_some, Option.map_eq_some_iff] at hs
    obtain ⟨r', hr', rfl⟩ := hs
    have happ : run.1 ++ run'.1 ++ run'.2 = l := by
      rw [List.append_assoc, findEndOfRun_append less run.2, findEndOfRun_append less l]
    have hruns : Stable less (run.1 ++ run'.1) (mergeLoop less run.1 run'.1) :=
      mergeLoop_stable h (descents_findEndOfRun l)
    have hall := hruns.append (ih r' hr')
    rwa [happ] at hall

theorem sortLoop_stable (h : StrictWeak less) (rounds : Nat) {l l' : List α}
    (hs : sortLoop less rounds l = some l') : Stable less l l' := by
  induction rounds generalizing l with
  | zero => exact absurd hs (by simp [sortLoop])
  | succ rounds ih =>
    rw [sortLoop, Option.bind_eq_some_iff] at hs
    obtain ⟨r, hr, hs⟩ := hs
    have hpass := sortPass_stable h l r hr
    split_ifs at hs with hn ho
    · exact hpass.trans (ih hs)
    · obtain rfl := Option.some.inj hs
      exact hpass

/-- **`list_sort` is stable.** -/
theorem listSort_stable (h : StrictWeak less) {l l' : List α} (hs : listSort less l = some l') :
    Stable less l l' := sortLoop_stable h _ hs

end SystemProgramming.Words
