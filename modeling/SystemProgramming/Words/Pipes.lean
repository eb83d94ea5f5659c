import Mathlib.Data.Finset.Lattice.Fold
import Mathlib.Order.Lattice.Nat
import SystemProgramming.Lib.Descriptors

/-!
# The pipes of `fwords`

The descriptors of the parent in `main` of `fwords.c`, from the call of `main` to the merging loop.
After every `fork` the parent closes not the write end it was given but the descriptor after the
read end. The two are the same as long as the descriptors come in a row: a descriptor that was open
at the start and stands in the way is closed instead, and a write end stays open.

* `forkLoop_row`: while the descriptors come in a row, the parent has the read ends only.
* `Row.childTable_readEnd`, `Row.childTable_writeEnd`: and a child has the read ends of the pipes
  before its own, and its own write end.
* `writeEnd_of_gap`, `writeEnd_stays`: the first gap leaves a write end open, and later rounds close
  no more write ends than they open.
* `mergeReady_iff`: so the merging loop starts as it should iff nothing stands in the way.
-/

namespace SystemProgramming.Words

open Lib

/-- What a descriptor of the parent refers to: what it referred to at the start, or an end of the
pipe of round `k`. -/
inductive End where
  | initial (d : Nat)
  | readEnd (k : Nat)
  | writeEnd (k : Nat)
  deriving DecidableEq

/-- The table at the start, with the descriptors in `S` open. -/
def startTable (S : Finset Nat) : Descriptors End where
  file := fun d => if d ∈ S then some (.initial d) else none
  bound := S.sup id + 1
  free_above := fun n hn => if_neg fun h => by
    have : n ≤ S.sup id := Finset.le_sup (f := id) h
    omega

/-- The parent's part of a round: `pipe(&fd[2*k])`, and `close(fd[2*k]+1)` after the `fork`. -/
def parentRound (k : Nat) (table : Descriptors End) : (Nat × Nat) × Descriptors End :=
  let piped := table.pipe (.readEnd k) (.writeEnd k)
  (piped.1, piped.2.close (piped.1.1 + 1))

/-- The loop over the first `n` files: the array `fd`, in pairs, and the table. -/
def forkLoop : Nat → Descriptors End → List (Nat × Nat) × Descriptors End
  | 0, table => ([], table)
  | n + 1, table =>
    let r := forkLoop n table
    let round := parentRound n r.2
    (r.1 ++ [round.1], round.2)

/-- **What the merging loop needs**: no write end is open, every read end is open where `fd` says,
and so is what was open at the start. -/
structure MergeReady (S : Finset Nat) (n : Nat) : Prop where
  writeEnds : ∀ d k, (forkLoop n (startTable S)).2.file d ≠ some (.writeEnd k)
  readEnds : ∀ k, k < n → ∃ fd, (forkLoop n (startTable S)).1[k]? = some fd ∧
    (forkLoop n (startTable S)).2.file fd.1 = some (.readEnd k)
  initial : ∀ d ∈ S, (forkLoop n (startTable S)).2.file d = some (.initial d)

/-- The lowest free descriptor at the start. -/
def firstFree (S : Finset Nat) : Nat := (startTable S).lowestFree

variable {S : Finset Nat} {n k : Nat}

theorem startTable_eq_none {d : Nat} : (startTable S).file d = none ↔ d ∉ S := by
  simp [startTable]

theorem firstFree_not_mem (S : Finset Nat) : firstFree S ∉ S :=
  startTable_eq_none.mp (startTable S).lowestFree_spec.1

/-- The descriptors of the first `n` rounds come in a row: the `n` after the lowest free one are
free too. -/
def RowFree (S : Finset Nat) (n : Nat) : Prop := ∀ k, 1 ≤ k → k ≤ n → firstFree S + k ∉ S

theorem RowFree.not_mem (h : RowFree S n) (hk : k ≤ n) : firstFree S + k ∉ S := by
  rcases Nat.eq_zero_or_pos k with rfl | hpos
  · exact firstFree_not_mem S
  · exact h k hpos hk

theorem RowFree.mono {m : Nat} (h : RowFree S n) (hm : m ≤ n) : RowFree S m :=
  fun k h1 hk => h k h1 (Nat.le_trans hk hm)

/-- A round, given the descriptors that `pipe` takes. -/
theorem parentRound_eq {table : Descriptors End} {a b : Nat}
    (h : table.pipe (.readEnd k) (.writeEnd k) =
      ((a, b), (table.set a (some (.readEnd k))).set b (some (.writeEnd k)))) :
    parentRound k table = ((a, b),
      ((table.set a (some (.readEnd k))).set b (some (.writeEnd k))).close (a + 1)) := by
  unfold parentRound
  rw [h]

/-- After `j` rounds in a row the parent has what it had and the read ends. -/
structure Row (S : Finset Nat) (j : Nat) (r : List (Nat × Nat) × Descriptors End) : Prop where
  fd : r.1 = (List.range j).map fun k => (firstFree S + k, firstFree S + k + 1)
  table : ∀ d, r.2.file d = if d ∈ S then some (.initial d)
    else if firstFree S ≤ d ∧ d < firstFree S + j then some (.readEnd (d - firstFree S)) else none

/-- What is taken after `j` rounds in a row. -/
theorem Row.taken_iff {j : Nat} {r : List (Nat × Nat) × Descriptors End} (h : Row S j r) (d : Nat) :
    r.2.file d ≠ none ↔ d ∈ S ∨ (firstFree S ≤ d ∧ d < firstFree S + j) := by
  rw [h.table]
  by_cases h1 : d ∈ S
  · simp [h1]
  · by_cases h2 : firstFree S ≤ d ∧ d < firstFree S + j <;> simp [h1, h2]

/-- The next round takes the next descriptor for the read end. -/
theorem Row.pipe {j : Nat} {r : List (Nat × Nat) × Descriptors End} (h : Row S j r)
    (hfree : firstFree S + j ∉ S) :
    ∃ b, r.2.pipe (.readEnd j) (.writeEnd j) = ((firstFree S + j, b),
        (r.2.set (firstFree S + j) (some (.readEnd j))).set b (some (.writeEnd j))) ∧
      firstFree S + j < b ∧ b ∉ S ∧ ∀ m, m < b → m ≤ firstFree S + j ∨ m ∈ S := by
  obtain ⟨a, b, hpipe, hab, ha, hb, hlt⟩ := r.2.pipe_spec (.readEnd j) (.writeEnd j)
  have hlow : ∀ m, m < firstFree S → m ∈ S := fun m hm => by
    have := (startTable S).lowestFree_spec.2 m hm
    rw [Ne, startTable_eq_none, not_not] at this
    exact this
  have htaken : ∀ m, r.2.file m = none ↔ m ∉ S ∧ ¬ (firstFree S ≤ m ∧ m < firstFree S + j) :=
    fun m => by rw [← not_or, ← h.taken_iff, not_not]
  have haj : a = firstFree S + j := by
    rcases Nat.lt_trichotomy a (firstFree S + j) with hlt' | heq | hgt
    · obtain ⟨h1, h2⟩ := (htaken a).mp ha
      by_cases hm : a < firstFree S
      · exact absurd (hlow a hm) h1
      · exact absurd ⟨Nat.le_of_not_lt hm, hlt'⟩ h2
    · exact heq
    · exact absurd ((htaken _).mpr ⟨hfree, by omega⟩) (hlt _ (by omega) (by omega))
  subst haj
  refine ⟨b, hpipe, hab, ((htaken b).mp hb).1, ?_⟩
  intro m hm
  by_cases hle : m ≤ firstFree S + j
  · exact Or.inl hle
  · have := hlt m hm (by omega)
    rw [h.taken_iff] at this
    exact Or.inr (this.resolve_right (by omega))

/-- With nothing in the way the write end comes next. -/
theorem Row.pipe_next {j : Nat} {r : List (Nat × Nat) × Descriptors End} (h : Row S j r)
    (hfree : RowFree S (j + 1)) :
    r.2.pipe (.readEnd j) (.writeEnd j) = ((firstFree S + j, firstFree S + j + 1),
      (r.2.set (firstFree S + j) (some (.readEnd j))).set (firstFree S + j + 1)
        (some (.writeEnd j))) := by
  have hnext : firstFree S + j + 1 ∉ S := hfree.not_mem (Nat.le_refl (j + 1))
  obtain ⟨b, hpipe, hab, hbS, hlt⟩ := h.pipe (hfree.not_mem (Nat.le_succ j))
  have hb : b = firstFree S + j + 1 := by
    rcases Nat.lt_or_eq_of_le (Nat.succ_le_of_lt hab) with hgt | heq
    · rcases hlt _ hgt with hle | hmem
      · exact absurd hle (by omega)
      · exact absurd hmem hnext
    · exact heq.symm
  rw [hpipe, hb]

/-- **A round in a row.** -/
theorem Row.round {j : Nat} {r : List (Nat × Nat) × Descriptors End} (h : Row S j r)
    (hfree : RowFree S (j + 1)) :
    Row S (j + 1) (r.1 ++ [(parentRound j r.2).1], (parentRound j r.2).2) := by
  have hthis : firstFree S + j ∉ S := hfree.not_mem (Nat.le_succ j)
  have hnext : firstFree S + j + 1 ∉ S := hfree.not_mem (Nat.le_refl (j + 1))
  rw [parentRound_eq (h.pipe_next hfree)]
  refine ⟨?_, ?_⟩
  · rw [h.fd, List.range_succ, List.map_append]
    rfl
  · intro d
    by_cases hd : d = firstFree S + j + 1
    · subst hd
      rw [Descriptors.close_file_self, if_neg hnext, if_neg (by omega)]
    · rw [Descriptors.close_file_of_ne _ hd, Descriptors.set_file_of_ne _ _ hd]
      by_cases hd' : d = firstFree S + j
      · subst hd'
        rw [Descriptors.set_file_self, if_neg hthis, if_pos (by omega)]
        congr 2
        omega
      · rw [Descriptors.set_file_of_ne _ _ hd', h.table]
        have hiff : (firstFree S ≤ d ∧ d < firstFree S + j) ↔
            (firstFree S ≤ d ∧ d < firstFree S + (j + 1)) := by omega
        simp only [hiff]

/-- Before the first round. -/
theorem row_start (S : Finset Nat) : Row S 0 ([], startTable S) := by
  refine ⟨rfl, fun d => ?_⟩
  rw [if_neg (by omega : ¬ (firstFree S ≤ d ∧ d < firstFree S + 0))]
  rfl

/-- **While nothing stands in the way** the descriptors come in a row. -/
theorem forkLoop_row {j : Nat} (h : RowFree S j) :
    Row S j (forkLoop j (startTable S)) := by
  induction j with
  | zero => exact row_start S
  | succ j ih => exact (ih (h.mono (Nat.le_succ j))).round h

/-! ## The children, and the merging loop -/

/-- The child's table: what it inherits in round `k`, after `close(fd[2*k])`. -/
def childTable (k : Nat) (table : Descriptors End) : Descriptors End :=
  let piped := table.pipe (.readEnd k) (.writeEnd k)
  piped.2.close piped.1.1

/-- What the child of round `j` has in a row. -/
theorem Row.childTable_file {j : Nat} {r : List (Nat × Nat) × Descriptors End} (h : Row S j r)
    (hfree : RowFree S (j + 1)) (d : Nat) :
    (childTable j r.2).file d = if d = firstFree S + j + 1 then some (.writeEnd j)
      else r.2.file d := by
  have hnone : r.2.file (firstFree S + j) = none := by
    rw [h.table, if_neg (hfree.not_mem (Nat.le_succ j)), if_neg (by omega)]
  unfold childTable
  rw [h.pipe_next hfree]
  by_cases hd : d = firstFree S + j
  · subst hd
    rw [Descriptors.close_file_self, if_neg (by omega), hnone]
  · rw [Descriptors.close_file_of_ne _ hd]
    by_cases hd' : d = firstFree S + j + 1
    · subst hd'
      rw [Descriptors.set_file_self, if_pos rfl]
    · rw [Descriptors.set_file_of_ne _ _ hd', Descriptors.set_file_of_ne _ _ hd, if_neg hd']

/-- The table holds what it held at the start, and the read ends from `k` on to `n`. -/
def ReadEnds (S : Finset Nat) (k n : Nat) (table : Descriptors End) : Prop :=
  ∀ d, table.file d = if d ∈ S then some (.initial d)
    else if firstFree S + k ≤ d ∧ d < firstFree S + n then some (.readEnd (d - firstFree S))
      else none

theorem Row.readEnds {j : Nat} {r : List (Nat × Nat) × Descriptors End} (h : Row S j r) :
    ReadEnds S 0 j r.2 := h.table

namespace ReadEnds

variable {table : Descriptors End} {t : Nat}

/-- Where the read ends are. -/
theorem file_eq (h : ReadEnds S k n table) (hfree : RowFree S n) (hk : k ≤ t) (hn : t < n) :
    table.file (firstFree S + t) = some (.readEnd t) := by
  rw [h, if_neg (hfree.not_mem (Nat.le_of_lt hn)), if_pos (by omega), Nat.add_sub_cancel_left]

theorem readEnd_iff (h : ReadEnds S k n table) (hfree : RowFree S n) :
    (∃ d, table.file d = some (.readEnd t)) ↔ k ≤ t ∧ t < n := by
  refine ⟨fun ⟨d, hd⟩ => ?_, fun ⟨hk, hn⟩ => ⟨_, h.file_eq hfree hk hn⟩⟩
  rw [h] at hd
  split_ifs at hd with h1 h2
  · exact absurd hd (by simp)
  · obtain rfl : d - firstFree S = t := End.readEnd.inj (Option.some.inj hd)
    omega

theorem writeEnd_ne (h : ReadEnds S k n table) (d : Nat) : table.file d ≠ some (.writeEnd t) := by
  rw [h]
  split_ifs <;> simp

/-- The parent closes the next read end. -/
theorem close (h : ReadEnds S k n table) (hfree : firstFree S + k ∉ S) :
    ReadEnds S (k + 1) n (table.close (firstFree S + k)) := fun d => by
  by_cases hd : d = firstFree S + k
  · subst hd
    rw [Descriptors.close_file_self, if_neg hfree, if_neg (by omega)]
  · have hiff : (firstFree S + k ≤ d ∧ d < firstFree S + n) ↔
        (firstFree S + (k + 1) ≤ d ∧ d < firstFree S + n) := by omega
    rw [Descriptors.close_file_of_ne _ hd, h]
    simp only [hiff]

end ReadEnds

/-- The child of round `j` has the read ends of the rounds before, and its own write end. -/
theorem Row.childTable_readEnd {j t : Nat} {r : List (Nat × Nat) × Descriptors End} (h : Row S j r)
    (hfree : RowFree S (j + 1)) : (∃ d, (childTable j r.2).file d = some (.readEnd t)) ↔ t < j := by
  have hiff := h.readEnds.readEnd_iff (hfree.mono (Nat.le_succ j)) (t := t)
  refine ⟨fun ⟨d, hd⟩ => ?_, fun ht => ?_⟩
  · rw [h.childTable_file hfree] at hd
    split_ifs at hd
    · exact absurd hd (by simp)
    · exact (hiff.mp ⟨d, hd⟩).2
  · obtain ⟨d, hd⟩ := hiff.mpr ⟨Nat.zero_le t, ht⟩
    refine ⟨d, ?_⟩
    rw [h.childTable_file hfree, if_neg ?_, hd]
    rintro rfl
    have hnext : firstFree S + j + 1 ∉ S := hfree.not_mem (Nat.le_refl (j + 1))
    rw [h.table, if_neg hnext, if_neg (by omega)] at hd
    exact absurd hd (by simp)

theorem Row.childTable_writeEnd {j t : Nat} {r : List (Nat × Nat) × Descriptors End} (h : Row S j r)
    (hfree : RowFree S (j + 1)) :
    (∃ d, (childTable j r.2).file d = some (.writeEnd t)) ↔ t = j := by
  refine ⟨fun ⟨d, hd⟩ => ?_, ?_⟩
  · rw [h.childTable_file hfree] at hd
    split_ifs at hd
    · exact (End.writeEnd.inj (Option.some.inj hd)).symm
    · exact absurd hd (h.readEnds.writeEnd_ne d)
  · rintro rfl
    exact ⟨_, (h.childTable_file hfree _).trans (if_pos rfl)⟩

/-! ## A descriptor in the way -/

/-- A write end is open. -/
def WriteEndOpen (table : Descriptors End) : Prop := ∃ d k, table.file d = some (.writeEnd k)

/-- **The first descriptor that stands in the way** is closed instead of the write end. -/
theorem writeEnd_of_gap {j : Nat} (h : RowFree S j)
    (hgap : firstFree S + (j + 1) ∈ S) : WriteEndOpen (forkLoop (j + 1) (startTable S)).2 := by
  obtain ⟨b, hpipe, hab, hbS, -⟩ := (forkLoop_row h).pipe (h.not_mem (Nat.le_refl j))
  have hb : b ≠ firstFree S + j + 1 := by
    rintro rfl
    exact hbS hgap
  refine ⟨b, j, ?_⟩
  simp only [forkLoop, parentRound_eq hpipe]
  rw [Descriptors.close_file_of_ne _ hb, Descriptors.set_file_self]

/-- **A round closes at most one write end**, and opens one. -/
theorem writeEnd_stays {table : Descriptors End} (h : WriteEndOpen table) (k : Nat) :
    WriteEndOpen (parentRound k table).2 := by
  obtain ⟨d, i, hd⟩ := h
  obtain ⟨a, b, hpipe, hab, ha, hb, -⟩ := table.pipe_spec (.readEnd k) (.writeEnd k)
  have hda : d ≠ a := by
    rintro rfl
    exact absurd (ha.symm.trans hd) (by simp)
  have hdb : d ≠ b := by
    rintro rfl
    exact absurd (hb.symm.trans hd) (by simp)
  rw [parentRound_eq hpipe]
  by_cases hclosed : b = a + 1
  · refine ⟨d, i, ?_⟩
    rw [Descriptors.close_file_of_ne _ (hclosed ▸ hdb), Descriptors.set_file_of_ne _ _ hdb,
      Descriptors.set_file_of_ne _ _ hda, hd]
  · refine ⟨b, k, ?_⟩
    rw [Descriptors.close_file_of_ne _ hclosed, Descriptors.set_file_self]

theorem forkLoop_writeEnd {table : Descriptors End} {m : Nat} (hmn : m ≤ n)
    (h : WriteEndOpen (forkLoop m table).2) : WriteEndOpen (forkLoop n table).2 := by
  induction n with
  | zero =>
    obtain rfl : m = 0 := Nat.le_zero.mp hmn
    exact h
  | succ n ih =>
    rcases Nat.lt_or_eq_of_le hmn with hlt | rfl
    · exact writeEnd_stays (ih (Nat.le_of_lt_succ hlt)) n
    · exact h

/-- A descriptor in the way leaves a write end open. -/
theorem writeEndOpen_of_not_rowFree (h : ¬ RowFree S n) :
    WriteEndOpen (forkLoop n (startTable S)).2 := by
  have hex : ∃ k, 1 ≤ k ∧ k ≤ n ∧ firstFree S + k ∈ S := by
    by_contra hno
    exact h fun k h1 hk hmem => hno ⟨k, h1, hk, hmem⟩
  obtain ⟨h1, hn, hmem⟩ := Nat.find_spec hex
  have hmin : RowFree S (Nat.find hex - 1) := fun k hk1 hk hS =>
    Nat.find_min hex (m := k) (by omega) ⟨hk1, by omega, hS⟩
  refine forkLoop_writeEnd hn ?_
  have hsucc : Nat.find hex - 1 + 1 = Nat.find hex := Nat.sub_add_cancel h1
  have := writeEnd_of_gap hmin (hsucc.symm ▸ hmem)
  rwa [hsucc] at this

theorem mergeReady_of_rowFree (h : RowFree S n) : MergeReady S n := by
  have hrow := forkLoop_row h
  refine ⟨?_, ?_, fun d hd => by rw [hrow.table, if_pos hd]⟩
  · intro d k hd
    rw [hrow.table] at hd
    split_ifs at hd <;> exact absurd hd (by simp)
  · intro k hk
    refine ⟨(firstFree S + k, firstFree S + k + 1), by rw [hrow.fd]; simp [hk], ?_⟩
    rw [hrow.table, if_neg (h.not_mem (Nat.le_of_lt hk)), if_pos (by omega)]
    congr 2
    omega

/-- **The parent is ready to merge iff the descriptors it takes come in a row**: the lowest one that
is free at the start and the `n` after it. Otherwise a write end is open. -/
theorem mergeReady_iff (S : Finset Nat) (n : Nat) :
    (MergeReady S n ↔ RowFree S n) ∧
      (¬ WriteEndOpen (forkLoop n (startTable S)).2 ↔ RowFree S n) := by
  have hready : MergeReady S n → ¬ WriteEndOpen (forkLoop n (startTable S)).2 := by
    rintro h ⟨d, k, hd⟩
    exact h.writeEnds d k hd
  have hrow : ¬ WriteEndOpen (forkLoop n (startTable S)).2 → RowFree S n := fun h => by
    by_contra hno
    exact h (writeEndOpen_of_not_rowFree hno)
  exact ⟨⟨fun h => hrow (hready h), mergeReady_of_rowFree⟩,
    ⟨hrow, fun h => hready (mergeReady_of_rowFree h)⟩⟩

/-- With 0, 1, 2 and 4 open, one file leaves the write end 5 open and closes 4. -/
theorem mergeReady_gap :
    ¬ (∀ S n, 0 ∈ S → 1 ∈ S → 2 ∈ S → MergeReady S n) ∧
    (forkLoop 1 (startTable {0, 1, 2, 4})).1 = [(3, 5)] ∧
    (forkLoop 1 (startTable {0, 1, 2, 4})).2.file 5 = some (.writeEnd 0) ∧
    (forkLoop 1 (startTable {0, 1, 2, 4})).2.file 4 = none := by
  refine ⟨?_, by decide, by decide, by decide⟩
  intro hclaim
  exact (hclaim {0, 1, 2, 4} 1 (by decide) (by decide) (by decide)).writeEnds 5 0 (by decide)

end SystemProgramming.Words
