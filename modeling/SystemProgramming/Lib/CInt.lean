import Mathlib.Data.Int.DivMod
import Mathlib.Order.Monotone.Basic

/-!
# The integers of C

`int` is a 32-bit integer in two's complement.

* `toCInt_of_le`: what fits stays as it is.
* `toCInt_neg`: what fits into 32 bits only becomes negative.
* `toCInt_add`, `toCInt_sub`: an `int` that counts up and down wraps around once in the end.
* `doubled`: an `int` that is doubled again and again, which is how arrays grow.
-/

namespace SystemProgramming.Lib

/-- `INT_MAX`. -/
def cIntMax : Nat := 2147483647

/-- A number wrapped around to an `int`. -/
def toCInt (n : Int) : Int := Int.bmod n 4294967296

theorem toCInt_of_le {n : Nat} (h : n ≤ cIntMax) : toCInt n = n := by
  unfold cIntMax at h
  unfold toCInt
  exact Int.bmod_eq_of_le (by omega) (by omega)

theorem toCInt_neg {n : Nat} (h : cIntMax < n) (h' : n < 4294967296) : toCInt n < 0 := by
  unfold cIntMax at h
  unfold toCInt
  rw [Int.bmod_def]
  omega

theorem toCInt_eq_self_iff (n : Nat) : toCInt n = n ↔ n ≤ cIntMax := by
  unfold toCInt Int.bmod cIntMax
  simp only
  split_ifs <;> omega

/-- What fits into 32 bits is zero only if it was. -/
theorem toCInt_eq_zero {n : Nat} (h : n < 4294967296) : toCInt n = 0 ↔ n = 0 := by
  unfold toCInt
  rw [Int.bmod_def]
  omega

theorem toCInt_add (m n : Int) : toCInt (toCInt m + n) = toCInt (m + n) := Int.bmod_add_bmod

theorem toCInt_sub (m n : Int) : toCInt (toCInt m - n) = toCInt (m - n) := Int.bmod_sub_bmod

/-! ## Doubling -/

/-- `n`, doubled `i` times. -/
def doubled (n : Nat) : Nat → Nat
  | 0 => n
  | i + 1 => 2 * doubled n i

variable {n i : Nat}

theorem doubled_strictMono (hn : 0 < n) : StrictMono (doubled n) := by
  have hpos : ∀ i, 0 < doubled n i := fun i => by
    induction i with
    | zero => exact hn
    | succ i ih => exact Nat.mul_pos (by decide) ih
  refine strictMono_nat_of_lt_succ fun i => ?_
  have := hpos i
  rw [doubled]
  omega

theorem toCInt_doubled (h : doubled n (i + 1) ≤ cIntMax) :
    toCInt (2 * (doubled n i : Int)) = doubled n (i + 1) := by
  rw [← toCInt_of_le h, doubled]
  rfl

/-- One doubling too many makes the number negative. -/
theorem toCInt_doubled_neg (h : doubled n i ≤ cIntMax) (h' : ¬ doubled n (i + 1) ≤ cIntMax) :
    toCInt (2 * (doubled n i : Int)) < 0 := by
  refine toCInt_neg (n := doubled n (i + 1)) (Nat.lt_of_not_le h') ?_
  rw [doubled]
  unfold cIntMax at h
  omega

end SystemProgramming.Lib
