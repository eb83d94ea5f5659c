import Mathlib.Data.List.Basic
import Mathlib.Logic.Function.Basic
import Mathlib.Order.Basic

/-!
# Descriptor tables

The table of a process: which open file, if any, a descriptor refers to. Opening takes the lowest
free descriptor, `pipe` the two lowest. `dup2` and `close` of an `int` that is no open descriptor
change nothing.

* `lowestFree_spec`: the lowest free descriptor is free, and all below it are taken.
* `pipe_spec`: what `pipe` allocates, and what the table is afterwards.
* `dup2_file_self`, `closeFd_file`: what `dup2` and `close` make of the table.
-/

namespace SystemProgramming.Lib

/-- A descriptor table with open files `φ`. All descriptors from `bound` on are free. -/
structure Descriptors (φ : Type) where
  file : Nat → Option φ
  bound : Nat
  free_above : ∀ n, bound ≤ n → file n = none

namespace Descriptors

variable {φ : Type}

/-- The table with the files `fs` behind the descriptors from 0 on. -/
def ofList (fs : List φ) : Descriptors φ where
  file n := fs[n]?
  bound := fs.length
  free_above := fun _ hn => List.getElem?_eq_none hn

/-- The lowest free descriptor. -/
def lowestFree (t : Descriptors φ) : Nat :=
  (List.range t.bound).findIdx fun n => (t.file n).isNone

/-- Descriptor `n` refers to `f` from now on. -/
def set (t : Descriptors φ) (n : Nat) (f : Option φ) : Descriptors φ where
  file := Function.update t.file n f
  bound := max t.bound (n + 1)
  free_above := fun m hm => by
    rw [Function.update_of_ne (by omega)]
    exact t.free_above m (by omega)

@[simp] theorem set_file_self (t : Descriptors φ) (n : Nat) (f : Option φ) :
    (t.set n f).file n = f := Function.update_self ..

theorem set_file_of_ne (t : Descriptors φ) {m n : Nat} (f : Option φ) (h : m ≠ n) :
    (t.set n f).file m = t.file m := Function.update_of_ne h ..

/-- `close`. -/
def close (t : Descriptors φ) (n : Nat) : Descriptors φ := t.set n none

@[simp] theorem close_file_self (t : Descriptors φ) (n : Nat) : (t.close n).file n = none :=
  set_file_self ..

theorem close_file_of_ne (t : Descriptors φ) {m n : Nat} (h : m ≠ n) :
    (t.close n).file m = t.file m := set_file_of_ne t none h

/-- Opening `f`: the descriptor, and the table. -/
def alloc (t : Descriptors φ) (f : φ) : Nat × Descriptors φ :=
  (t.lowestFree, t.set t.lowestFree (some f))

/-- `pipe` with the ends `r` and `w`: the two descriptors, and the table. -/
def pipe (t : Descriptors φ) (r w : φ) : (Nat × Nat) × Descriptors φ :=
  let opened := t.alloc r
  let opened' := opened.2.alloc w
  ((opened.1, opened'.1), opened'.2)

/-- **The lowest free descriptor** is free, and all below it are taken. -/
theorem lowestFree_spec (t : Descriptors φ) :
    t.file t.lowestFree = none ∧ ∀ m, m < t.lowestFree → t.file m ≠ none := by
  have hle : t.lowestFree ≤ t.bound := by
    have hlen : t.lowestFree ≤ (List.range t.bound).length := List.findIdx_le_length
    rwa [List.length_range] at hlen
  constructor
  · rcases Nat.lt_or_eq_of_le hle with hlt | heq
    · have hlen : t.lowestFree < (List.range t.bound).length := by rwa [List.length_range]
      unfold lowestFree at hlen
      have hfree := List.findIdx_getElem (w := hlen)
      rw [List.getElem_range] at hfree
      exact Option.isNone_iff_eq_none.mp hfree
    · exact t.free_above _ (Nat.le_of_eq heq.symm)
  · intro m hm hnone
    have htaken := List.not_of_lt_findIdx hm
    simp [hnone] at htaken

/-- **`pipe`** takes the two lowest free descriptors. -/
theorem pipe_spec (t : Descriptors φ) (r w : φ) :
    ∃ a b, t.pipe r w = ((a, b), (t.set a (some r)).set b (some w)) ∧ a < b ∧ t.file a = none ∧
      t.file b = none ∧ ∀ m, m < b → m ≠ a → t.file m ≠ none := by
  obtain ⟨h1, h2⟩ := t.lowestFree_spec
  obtain ⟨h3, h4⟩ := (t.set t.lowestFree (some r)).lowestFree_spec
  have hne : (t.set t.lowestFree (some r)).lowestFree ≠ t.lowestFree := fun heq => by
    rw [heq, set_file_self] at h3
    exact absurd h3 (by simp)
  rw [set_file_of_ne _ _ hne] at h3
  refine ⟨t.lowestFree, (t.set t.lowestFree (some r)).lowestFree, rfl, ?_, h1, h3, ?_⟩
  · exact Nat.lt_of_le_of_ne (Nat.le_of_not_lt fun hlt => h2 _ hlt h3) (Ne.symm hne)
  · intro m hm hma
    have := h4 m hm
    rwa [set_file_of_ne _ _ hma] at this

/-- The lowest free descriptor depends on which descriptors are free. -/
theorem lowestFree_congr {t t' : Descriptors φ} (h : t'.file = t.file) :
    t'.lowestFree = t.lowestFree := by
  obtain ⟨h1, h2⟩ := t.lowestFree_spec
  obtain ⟨h1', h2'⟩ := t'.lowestFree_spec
  rw [h] at h1' h2'
  exact Nat.le_antisymm (Nat.le_of_not_lt fun hlt => h2' _ hlt h1)
    (Nat.le_of_not_lt fun hlt => h2 _ hlt h1')

theorem pipe_congr {t t' : Descriptors φ} (h : t'.file = t.file) (r w : φ) :
    (t'.pipe r w).1 = (t.pipe r w).1 := by
  have h1 : t'.lowestFree = t.lowestFree := lowestFree_congr h
  have h2 : (t'.set t'.lowestFree (some r)).file = (t.set t.lowestFree (some r)).file := by
    show Function.update t'.file _ _ = Function.update t.file _ _
    rw [h, h1]
  exact Prod.ext h1 (lowestFree_congr h2)

/-! ## Duplicates -/

/-- `dup`: the new descriptor, and the table. It fails if `n` is free. -/
def dup (t : Descriptors φ) (n : Nat) : Option (Nat × Descriptors φ) := (t.file n).map t.alloc

/-- What an `int` refers to as a descriptor. -/
def fileOf (t : Descriptors φ) (fd : Int) : Option φ := if fd < 0 then none else t.file fd.toNat

/-- `dup2`. It fails if `fd` is free. -/
def dup2 (t : Descriptors φ) (fd : Int) (n : Nat) : Descriptors φ :=
  match t.fileOf fd with
  | none => t
  | some f => t.set n (some f)

/-- `close` of an `int`. -/
def closeFd (t : Descriptors φ) (fd : Int) : Descriptors φ :=
  if fd < 0 then t else t.close fd.toNat

@[simp] theorem fileOf_natCast (t : Descriptors φ) (n : Nat) : t.fileOf n = t.file n := by
  rw [fileOf, if_neg (by omega), Int.toNat_natCast]

theorem exists_of_fileOf_ne {t : Descriptors φ} {fd : Int} (h : t.fileOf fd ≠ none) :
    ∃ n : Nat, fd = n ∧ t.file n ≠ none := by
  unfold fileOf at h
  by_cases hneg : fd < 0
  · exact absurd (if_pos hneg) h
  · rw [if_neg hneg] at h
    exact ⟨fd.toNat, by omega, h⟩

/-- **`dup`** takes a free descriptor, for the file that `n` refers to. -/
theorem dup_spec {t t' : Descriptors φ} {m n : Nat} (h : t.dup n = some (m, t')) :
    t.file n ≠ none ∧ t.file m = none ∧ t'.file m = t.file n ∧
      ∀ k, k ≠ m → t'.file k = t.file k := by
  obtain ⟨f, hf, halloc⟩ := Option.map_eq_some_iff.mp h
  obtain ⟨rfl, rfl⟩ := Prod.mk.inj halloc
  refine ⟨by simp [hf], t.lowestFree_spec.1, ?_, fun k hk => set_file_of_ne _ _ hk⟩
  rw [hf]
  exact set_file_self ..

theorem dup2_file_of_ne (t : Descriptors φ) (fd : Int) {m n : Nat} (h : m ≠ n) :
    (t.dup2 fd n).file m = t.file m := by
  unfold dup2
  split
  · rfl
  · exact t.set_file_of_ne _ h

theorem dup2_file_self (t : Descriptors φ) (fd : Int) (n : Nat) :
    (t.dup2 fd n).file n = (t.fileOf fd).or (t.file n) := by
  unfold dup2
  split
  next h => rw [h, Option.none_or]
  next f h => rw [h, Option.some_or, set_file_self]

theorem closeFd_file (t : Descriptors φ) (fd : Int) (m : Nat) :
    (t.closeFd fd).file m = if (m : Int) = fd then none else t.file m := by
  unfold closeFd
  split_ifs with h1 h2 h2
  · omega
  · rfl
  · rw [show m = fd.toNat by omega, close_file_self]
  · exact t.close_file_of_ne (by omega)

/-- A duplicate of what `n` refers to already changes nothing. -/
theorem dup2_file_eq {t : Descriptors φ} {m n : Nat} (h : t.file m = t.file n) :
    (t.dup2 m n).file = t.file := by
  funext k
  by_cases hk : k = n
  · subst hk
    rw [dup2_file_self, fileOf_natCast, h, Option.or_self]
  · exact t.dup2_file_of_ne m hk

/-- Closing what has just been opened. -/
theorem close_alloc_file (t : Descriptors φ) (f : φ) :
    ((t.alloc f).2.close (t.alloc f).1).file = t.file := by
  funext k
  by_cases hk : k = t.lowestFree
  · subst hk
    exact (close_file_self ..).trans t.lowestFree_spec.1.symm
  · exact (close_file_of_ne _ hk).trans (t.set_file_of_ne _ hk)

end Descriptors

end SystemProgramming.Lib
