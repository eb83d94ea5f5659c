import Mathlib.Data.Nat.Find
import SystemProgramming.Lib.Bytes
import SystemProgramming.Lib.CInt

/-!
# The loop of `pwd`

`cmd_pwd` of `Shell/shell.c`, in any state of the working directory. There is memory for every
buffer. The `int` wraps around when it overflows, and the result of the loop says if it has.

* `cmdPwdLoop_doubled`: while `getcwd` fails, the loop doubles the size of the buffer.
* `cmdPwd_ends_iff`: the loop ends without overflow exactly if `getcwd` finds a path that fits into
  the largest of the buffers.
-/

namespace SystemProgramming.Shell

open Lib

/-- The working directory as `getcwd` finds it: its path, or `none` when `getcwd` fails for another
reason than a short buffer. -/
structure WorkingDir where
  path : Option Str
  no_nul : ∀ p ∈ path, 0 ∉ p

/-- An `int` that is passed as a `size_t`. -/
def toSizeT (n : Int) : Nat := (n % 18446744073709551616).toNat

/-- `getcwd`: the string in the buffer of `size` bytes. `none` is `NULL`. -/
def getcwd (cwd : WorkingDir) (size : Nat) : Option Str :=
  cwd.path.filter fun p => p.length < size

/-- How `cmd_pwd` ends: what it has printed, and whether `len` has been in the range of `int`. -/
structure PwdResult where
  printed : Str
  inRange : Bool
  deriving DecidableEq

/-- The loop of `cmd_pwd`, and the `printf` behind it. -/
def cmdPwdLoop (cwd : WorkingDir) : Nat → Int → Bool → Option PwdResult
  | 0, _, _ => none
  | fuel + 1, len, inRange =>
    match getcwd cwd (toSizeT len) with
    | some buffer => some ⟨cString buffer ++ [10], inRange⟩
    | none => cmdPwdLoop cwd fuel (toCInt (2 * len)) (inRange && toCInt (2 * len) == 2 * len)

/-- `cmd_pwd`. -/
def cmdPwd (cwd : WorkingDir) (fuel : Nat) : Option PwdResult := cmdPwdLoop cwd fuel 20 true

/-- **`cmd_pwd` ends as it should**: without overflow, and if there is a path, it has printed it. -/
def PwdEnds (cwd : WorkingDir) : Prop :=
  ∃ n printed, (∀ fuel, n ≤ fuel → cmdPwd cwd fuel = some ⟨printed, true⟩) ∧
    ∀ p ∈ cwd.path, printed = p ++ [10]

variable {cwd : WorkingDir} {i : Nat}

theorem toSizeT_of_le {n : Nat} (h : n ≤ cIntMax) : toSizeT n = n := by
  unfold cIntMax at h
  unfold toSizeT
  omega

theorem getcwd_eq_none_iff {size : Nat} :
    getcwd cwd size = none ↔ ∀ p ∈ cwd.path, size ≤ p.length := by
  simp [getcwd, Option.filter_eq_none_iff]

/-- The rounds that fail double the buffer. -/
theorem cmdPwdLoop_doubled (fuel : Nat) (hmax : doubled 20 i ≤ cIntMax)
    (h : ∀ j, j < i → getcwd cwd (doubled 20 j) = none) :
    cmdPwd cwd (fuel + i) = cmdPwdLoop cwd fuel (doubled 20 i) true := by
  induction i generalizing fuel with
  | zero => rfl
  | succ i ih =>
    have hlt : doubled 20 i < doubled 20 (i + 1) :=
      doubled_strictMono (by decide) (Nat.lt_succ_self i)
    have hi : doubled 20 i ≤ cIntMax := hlt.le.trans hmax
    have hexact : (2 * (doubled 20 i : Int)) = doubled 20 (i + 1) := rfl
    have hfuel : fuel + (i + 1) = fuel + 1 + i := by omega
    rw [hfuel, ih (fuel + 1) hi fun j hj => h j (by omega), cmdPwdLoop, toSizeT_of_le hi,
      h i (Nat.lt_succ_self i)]
    simp only [hexact, toCInt_of_le hmax, beq_self_eq_true, Bool.and_true]

/-- What has once been out of range stays so. -/
theorem inRange_of_overflow {fuel : Nat} {len : Int} {r : PwdResult}
    (h : cmdPwdLoop cwd fuel len false = some r) : r.inRange = false := by
  induction fuel generalizing len with
  | zero => exact absurd h (by simp [cmdPwdLoop])
  | succ fuel ih =>
    rw [cmdPwdLoop] at h
    split at h
    · exact Option.some.inj h ▸ rfl
    · exact ih h

/-- The largest size of the buffer. -/
theorem doubled_twenty : doubled 20 26 = 20 * 2 ^ 26 := by decide

/-- A path that fits into the largest buffer is found, and printed. -/
theorem pwdEnds_of_path {p : Str} (hp : p ∈ cwd.path) (hlen : p.length < 20 * 2 ^ 26) :
    PwdEnds cwd := by
  have hfits : ∃ i, p.length < doubled 20 i := ⟨26, by rwa [doubled_twenty]⟩
  -- the first buffer that is large enough
  obtain ⟨i, hi, hmin⟩ : ∃ i, p.length < doubled 20 i ∧ ∀ j, j < i → ¬ p.length < doubled 20 j :=
    ⟨Nat.find hfits, Nat.find_spec hfits, fun j => Nat.find_min hfits⟩
  have hle : i ≤ 26 := Nat.le_of_not_lt fun h => hmin 26 h (by rwa [doubled_twenty])
  have hmax : doubled 20 i ≤ cIntMax :=
    ((doubled_strictMono (by decide)).monotone hle).trans (by decide)
  have hfail : ∀ j, j < i → getcwd cwd (doubled 20 j) = none := fun j hj =>
    getcwd_eq_none_iff.mpr fun q hq => by
      obtain rfl := Option.mem_unique hp hq
      exact Nat.le_of_not_lt (hmin j hj)
  have hfind : getcwd cwd (doubled 20 i) = some p := by
    rw [getcwd, Option.mem_def.mp hp, Option.filter_some, if_pos (by simpa using hi)]
  refine ⟨i + 1, p ++ [10], fun fuel hfuel => ?_, fun q hq => by rw [Option.mem_unique hp hq]⟩
  obtain ⟨k, rfl⟩ : ∃ k, fuel = k + 1 + i := ⟨fuel - 1 - i, by omega⟩
  rw [cmdPwdLoop_doubled _ hmax hfail, cmdPwdLoop, toSizeT_of_le hmax, hfind]
  simp only [cString_of_not_mem (cwd.no_nul p hp)]

/-- Without one `len` overflows. -/
theorem overflow_of_no_path (h : ∀ p ∈ cwd.path, ¬ p.length < 20 * 2 ^ 26) (fuel : Nat) :
    cmdPwd cwd (fuel + 1 + 26) = cmdPwdLoop cwd fuel (-1610612736) false := by
  have hmono : Monotone (doubled 20) := (doubled_strictMono (by decide)).monotone
  have hfail : ∀ j, j ≤ 26 → getcwd cwd (doubled 20 j) = none := fun j hj =>
    getcwd_eq_none_iff.mpr fun p hp => by
      have hj' : doubled 20 j ≤ 20 * 2 ^ 26 := doubled_twenty ▸ hmono hj
      exact hj'.trans (Nat.le_of_not_lt (h p hp))
  rw [cmdPwdLoop_doubled _ (by decide) fun j hj => hfail j hj.le, cmdPwdLoop,
    toSizeT_of_le (by decide), hfail 26 le_rfl]
  rfl

/-- **`cmd_pwd` ends as it should** exactly if the working directory has a path, of less than
`20 * 2 ^ 26` bytes. -/
theorem cmdPwd_ends_iff (cwd : WorkingDir) :
    PwdEnds cwd ↔ ∃ p ∈ cwd.path, p.length < 20 * 2 ^ 26 := by
  constructor
  · rintro ⟨n, printed, hrun, -⟩
    by_contra hnone
    have h := hrun (n + 1 + 26) (by omega)
    rw [overflow_of_no_path (by simpa using hnone)] at h
    exact absurd (inRange_of_overflow h) (by simp)
  · rintro ⟨p, hp, hlen⟩
    exact pwdEnds_of_path hp hlen

/-- A directory that has been removed: `len` overflows, and the loop never ends. -/
theorem cmdPwd_removed : ¬ (∀ cwd : WorkingDir, PwdEnds cwd) ∧
    ∀ fuel, cmdPwd ⟨none, fun _ h => absurd h (by simp)⟩ fuel = none := by
  have hnever : ∀ fuel len inRange,
      cmdPwdLoop ⟨none, fun _ h => absurd h (by simp)⟩ fuel len inRange = none := fun fuel => by
    induction fuel with
    | zero => exact fun len inRange => rfl
    | succ fuel ih => exact fun len inRange => ih _ _
  refine ⟨fun hclaim => ?_, fun fuel => hnever fuel 20 true⟩
  obtain ⟨n, printed, hrun, -⟩ := hclaim ⟨none, fun _ h => absurd h (by simp)⟩
  exact absurd ((hnever n 20 true).symm.trans (hrun n (Nat.le_refl n))) (by simp)

end SystemProgramming.Shell
