import Mathlib.Algebra.Group.Pi.Basic
import Mathlib.Algebra.Order.Group.Int
import Mathlib.Algebra.Ring.Int.Defs
import Mathlib.Data.List.Nodup

/-!
# Tallies

A list of entries, each with a key and a count, that stands for a function from keys to counts:
no key occurs twice, and the entries are the keys whose count is not zero (`IsTally`). Where in the
list an entry stands does not matter.

Without the condition that counts are positive it is `IsCount`.

* `IsTally.add_new`, `IsTally.add_old`: adding to the count of a key, with a new entry or in the
  entry it has.
* `IsTally.merge`: merging two tallies adds their counts.
* `IsTally.perm`: two tallies of one function have the same entries.
* `occ`: how often each key occurs in a list, which is what counting its elements tallies.
-/

namespace SystemProgramming.Lib

variable {ε κ : Type} {key : ε → κ} {val : ε → ℤ}

/-- The entries `l` tally `f`. -/
structure IsTally (key : ε → κ) (val : ε → ℤ) (l : List ε) (f : κ → ℤ) : Prop where
  nodup : (l.map key).Nodup
  entry : ∀ e ∈ l, 0 < val e ∧ f (key e) = val e
  absent : ∀ k, k ∉ l.map key → f k = 0

/-- No key occurs twice, and `f` is the count of each key that has an entry, and zero elsewhere. -/
structure IsCount (key : ε → κ) (val : ε → ℤ) (l : List ε) (f : κ → ℤ) : Prop where
  nodup : (l.map key).Nodup
  entry : ∀ e ∈ l, f (key e) = val e
  absent : ∀ k, k ∉ l.map key → f k = 0

variable {l l' : List ε} {f g : κ → ℤ}

theorem isTally_iff : IsTally key val l f ↔ IsCount key val l f ∧ ∀ e ∈ l, 0 < val e :=
  ⟨fun h => ⟨⟨h.nodup, fun e he => (h.entry e he).2, h.absent⟩, fun e he => (h.entry e he).1⟩,
    fun ⟨h, hpos⟩ => ⟨h.nodup, fun e he => ⟨hpos e he, h.entry e he⟩, h.absent⟩⟩

theorem IsCount.of_perm (h : IsCount key val l f) (hp : l.Perm l') : IsCount key val l' f :=
  ⟨(hp.map key).nodup_iff.mp h.nodup, fun e he => h.entry e (hp.mem_iff.mpr he),
    fun k hk => h.absent k fun hk' => hk ((hp.map key).mem_iff.mp hk')⟩

theorem isTally_nil : IsTally key val [] 0 :=
  ⟨List.nodup_nil, fun _ he => absurd he List.not_mem_nil, fun _ _ => rfl⟩

theorem IsTally.of_perm (h : IsTally key val l f) (hp : l.Perm l') : IsTally key val l' f :=
  ⟨(hp.map key).nodup_iff.mp h.nodup, fun e he => h.entry e (hp.mem_iff.mpr he),
    fun k hk => h.absent k fun hk' => hk ((hp.map key).mem_iff.mp hk')⟩

/-- The entries are determined by the function. -/
theorem IsTally.mem_iff (h : IsTally key val l f)
    (hext : ∀ a b, key a = key b → val a = val b → a = b) (e : ε) :
    e ∈ l ↔ 0 < val e ∧ f (key e) = val e := by
  refine ⟨h.entry e, ?_⟩
  rintro ⟨hpos, hf⟩
  have hk : key e ∈ l.map key := by
    by_contra hk
    rw [h.absent _ hk] at hf
    omega
  obtain ⟨e', he', hkey⟩ := List.mem_map.mp hk
  have hval : val e' = val e := by rw [← (h.entry e' he').2, hkey, hf]
  exact hext e' e hkey hval ▸ he'

/-- **Tallies of one function have the same entries.** -/
theorem IsTally.perm (h : IsTally key val l f) (h' : IsTally key val l' f)
    (hext : ∀ a b, key a = key b → val a = val b → a = b) : l.Perm l' :=
  (List.perm_ext_iff_of_nodup (List.Nodup.of_map key h.nodup) (List.Nodup.of_map key h'.nodup)).mpr
    fun e => (h.mem_iff hext e).trans (h'.mem_iff hext e).symm

/-! ## Adding to a count -/

section Add

variable [DecidableEq κ]

/-- A key that has no entry gets one. -/
theorem IsCount.add_new (h : IsCount key val l f) {e : ε} (hk : key e ∉ l.map key) :
    IsCount key val (e :: l) (f + Pi.single (key e) (val e)) := by
  refine ⟨List.nodup_cons.mpr ⟨hk, h.nodup⟩, ?_, ?_⟩
  · intro e' he'
    rcases List.mem_cons.mp he' with rfl | he'
    · rw [Pi.add_apply, h.absent _ hk, Pi.single_eq_same, zero_add]
    · have hne : key e' ≠ key e := fun heq => hk (heq ▸ List.mem_map_of_mem he')
      rw [Pi.add_apply, Pi.single_eq_of_ne hne, add_zero]
      exact h.entry e' he'
  · intro k hk'
    rw [List.map_cons, List.mem_cons, not_or] at hk'
    rw [Pi.add_apply, Pi.single_eq_of_ne hk'.1, add_zero]
    exact h.absent k hk'.2

/-- The entry of a key changes its count. -/
theorem IsCount.add_old {pre post : List ε} {e e' : ε} {n : ℤ}
    (h : IsCount key val (pre ++ e :: post) f) (hkey : key e' = key e)
    (hval : val e' = val e + n) :
    IsCount key val (pre ++ e' :: post) (f + Pi.single (key e) n) := by
  have hnd := h.nodup
  have hkeys : (pre ++ e' :: post).map key = (pre ++ e :: post).map key := by simp [hkey]
  rw [List.map_append, List.map_cons, List.nodup_middle, List.nodup_cons, List.mem_append,
    not_or] at hnd
  have hother : ∀ d, d ∈ pre ++ e :: post → key d ≠ key e →
      (f + Pi.single (key e) n : κ → ℤ) (key d) = val d := fun d hd hne => by
    rw [Pi.add_apply, Pi.single_eq_of_ne hne, add_zero]
    exact h.entry d hd
  refine ⟨hkeys ▸ h.nodup, ?_, ?_⟩
  · intro d hd
    rcases List.mem_append.mp hd with hd | hd
    · exact hother d (List.mem_append_left _ hd) fun heq =>
        hnd.1.1 (heq ▸ List.mem_map_of_mem hd)
    · rcases List.mem_cons.mp hd with rfl | hd
      · rw [Pi.add_apply, hkey, Pi.single_eq_same, h.entry e (by simp)]
        exact hval.symm
      · exact hother d (by simp [hd]) fun heq => hnd.1.2 (heq ▸ List.mem_map_of_mem hd)
  · intro k hk
    rw [hkeys] at hk
    have hne : k ≠ key e := fun heq => hk (by rw [heq]; simp)
    rw [Pi.add_apply, Pi.single_eq_of_ne hne, add_zero]
    exact h.absent k hk

theorem IsTally.add_new (h : IsTally key val l f) {e : ε} (hk : key e ∉ l.map key)
    (hpos : 0 < val e) : IsTally key val (e :: l) (f + Pi.single (key e) (val e)) := by
  obtain ⟨hcount, hall⟩ := isTally_iff.mp h
  exact isTally_iff.mpr ⟨hcount.add_new hk, List.forall_mem_cons.mpr ⟨hpos, hall⟩⟩

theorem IsTally.add_old {pre post : List ε} {e e' : ε} {n : ℤ}
    (h : IsTally key val (pre ++ e :: post) f) (hkey : key e' = key e) (hval : val e' = val e + n)
    (hpos : 0 < val e') : IsTally key val (pre ++ e' :: post) (f + Pi.single (key e) n) := by
  obtain ⟨hcount, hall⟩ := isTally_iff.mp h
  refine isTally_iff.mpr ⟨hcount.add_old hkey hval, ?_⟩
  intro d hd
  rcases List.mem_append.mp hd with hd | hd
  · exact hall d (List.mem_append_left _ hd)
  · rcases List.mem_cons.mp hd with rfl | hd
    · exact hpos
    · exact hall d (by simp [hd])

/-- Without its first entry the list tallies what is left of the counts. -/
theorem IsTally.tail {e : ε} (h : IsTally key val (e :: l) f) :
    IsTally key val l (f - Pi.single (key e) (val e)) := by
  have hnd := List.nodup_cons.mp h.nodup
  refine ⟨hnd.2, ?_, ?_⟩
  · intro d hd
    have hne : key d ≠ key e := fun heq => hnd.1 (heq ▸ List.mem_map_of_mem hd)
    rw [Pi.sub_apply, Pi.single_eq_of_ne hne, sub_zero]
    exact h.entry d (List.mem_cons_of_mem e hd)
  · intro k hk
    rw [Pi.sub_apply]
    by_cases hke : k = key e
    · subst hke
      rw [Pi.single_eq_same, (h.entry e List.mem_cons_self).2, sub_self]
    · rw [Pi.single_eq_of_ne hke, sub_zero]
      refine h.absent k fun hk' => ?_
      rcases List.mem_cons.mp hk' with rfl | hk'
      · exact hke rfl
      · exact hk hk'

/-- **Merging a tally** entry by entry into another one adds the counts. -/
theorem IsTally.merge {add : List ε → ε → List ε}
    (hadd : ∀ l f e, 0 < val e → IsTally key val l f →
      IsTally key val (add l e) (f + Pi.single (key e) (val e))) :
    ∀ {l : List ε} {f : κ → ℤ}, IsTally key val l f → ∀ {l' : List ε} {g : κ → ℤ},
      IsTally key val l' g → IsTally key val (l.foldl add l') (g + f)
  | [], f, h, l', g, h' => by
    have hf : f = 0 := funext fun k => h.absent k List.not_mem_nil
    rwa [hf, add_zero]
  | e :: l, f, h, l', g, h' => by
    have := h.tail.merge hadd (hadd l' g e (h.entry e List.mem_cons_self).1 h')
    rwa [add_assoc, add_sub_cancel] at this

end Add

/-! ## Occurrences -/

section Occ

variable [BEq κ]

/-- How often each key occurs in a list. -/
def occ (ks : List κ) : κ → ℤ := fun k => (ks.count k : ℤ)

@[simp] theorem occ_nil : occ ([] : List κ) = 0 := rfl

theorem occ_append (ks ks' : List κ) : occ (ks ++ ks') = occ ks + occ ks' := by
  funext k
  simp [occ]

theorem occ_perm {ks ks' : List κ} (h : ks.Perm ks') : occ ks = occ ks' := by
  funext k
  simp only [occ, h.count_eq]

variable [LawfulBEq κ] [DecidableEq κ]

theorem occ_singleton (k : κ) : occ [k] = Pi.single k 1 := by
  funext k'
  by_cases h : k' = k
  · subst h
    simp [occ]
  · rw [Pi.single_eq_of_ne h]
    simp [occ, Ne.symm h]

/-- **Counting a list** with an operation that adds one to the count of a key. `P` is what the
operation keeps of entries and counts. -/
theorem foldl_occ {P : List ε → (κ → ℤ) → Prop} {add : List ε → κ → List ε}
    (hadd : ∀ l f k, P l f → P (add l k) (f + Pi.single k 1)) :
    ∀ (ks : List κ) {l : List ε} {f : κ → ℤ}, P l f → P (ks.foldl add l) (f + occ ks)
  | [], _, f, h => by rwa [occ_nil, add_zero]
  | k :: ks, l, f, h => by
    rw [← List.singleton_append, occ_append, occ_singleton, ← add_assoc]
    exact foldl_occ hadd ks (hadd l f k h)

end Occ

/-! ## The count of a key -/

section CountOf

variable [DecidableEq κ]

/-- The count of a key in a list of entries, zero if it has none. -/
def countOf (key : ε → κ) (val : ε → ℤ) (l : List ε) (k : κ) : ℤ :=
  ((l.find? fun e => key e = k).map val).getD 0

theorem countOf_of_not_mem {k : κ} (hk : k ∉ l.map key) : countOf key val l k = 0 := by
  have hnone : l.find? (fun e => decide (key e = k)) = none :=
    List.find?_eq_none.mpr fun e he heq => hk (of_decide_eq_true heq ▸ List.mem_map_of_mem he)
  rw [countOf, hnone]
  rfl

/-- The entry of a key has its count. -/
theorem countOf_of_mem (hnd : (l.map key).Nodup) {e : ε} (he : e ∈ l) :
    countOf key val l (key e) = val e := by
  have hfind : l.find? (fun d => decide (key d = key e)) = some e := by
    cases hf : l.find? fun d => decide (key d = key e) with
    | none => exact absurd (List.find?_eq_none.mp hf e he) (by simp)
    | some d =>
      have hkey : key d = key e := by simpa using List.find?_some hf
      rw [List.inj_on_of_nodup_map hnd (List.mem_of_find?_eq_some hf) he hkey]
  rw [countOf, hfind]
  rfl

/-- The counts of the keys are the only ones. -/
theorem isCount_iff : IsCount key val l f ↔ (l.map key).Nodup ∧ f = countOf key val l := by
  constructor
  · intro h
    refine ⟨h.nodup, funext fun k => ?_⟩
    by_cases hk : k ∈ l.map key
    · obtain ⟨e, he, rfl⟩ := List.mem_map.mp hk
      rw [h.entry e he, countOf_of_mem h.nodup he]
    · rw [h.absent k hk, countOf_of_not_mem hk]
  · rintro ⟨hnd, rfl⟩
    exact ⟨hnd, fun e he => countOf_of_mem hnd he, fun k hk => countOf_of_not_mem hk⟩

end CountOf

end SystemProgramming.Lib
