import Mathlib.Algebra.Group.Nat.Defs
import Mathlib.Data.List.Lex
import Mathlib.Data.List.TakeWhile
import Mathlib.Data.Nat.Basic

/-!
# Byte strings

C strings are lists of bytes without the terminator (`Str`). This file has what the programs use
of the C library on them, in the C locale: decimal rendering (`%d` of a number that is not
negative) and its inverse, the character classes, and `strcmp`.

* `digitsValue_decimal`: the digits `decimal` writes read back as the number.
* `decimal_injective`, `length_decimal_le_iff`.
* `strcmp_neg_iff`: `strcmp` is the lexicographic order.
-/

namespace SystemProgramming.Lib

/-- A byte string. -/
abbrev Str := List UInt8

/-- A string literal. -/
def bytes (s : String) : Str := s.toList.map fun c => UInt8.ofNat c.toNat

/-- The C string in a byte string: the prefix before the first NUL. -/
def cString (s : Str) : Str := s.takeWhile (· != 0)

theorem cString_append_nul (s : Str) : cString (s ++ [0]) = cString s := by
  unfold cString
  rw [List.takeWhile_append]
  split_ifs with h
  · rw [List.takeWhile_cons_of_neg (by simp), List.append_nil,
      (List.takeWhile_prefix _).eq_of_length h]
  · rfl

theorem not_mem_cString (s : Str) : 0 ∉ cString s := fun h => by
  simpa using List.mem_takeWhile_imp h

theorem cString_of_not_mem {s : Str} (h : 0 ∉ s) : cString s = s :=
  List.takeWhile_eq_self_iff.mpr fun b hb => by
    simp only [bne_iff_ne, ne_eq]
    rintro rfl
    exact h hb

/-! ## Decimal numbers -/

/-- The decimal digits of `n`, as `%d` writes them. -/
def decimal (n : Nat) : Str := (Nat.toDigits 10 n).map fun c => UInt8.ofNat c.toNat

/-- `isdigit`. -/
def isdigit (b : UInt8) : Bool := 48 ≤ b && b ≤ 57

/-- The number that a string of digits stands for. -/
def digitsValue (ds : Str) : Nat := ds.foldl (fun v b => 10 * v + (b.toNat - 48)) 0

theorem isdigit_iff {b : UInt8} : isdigit b = true ↔ 48 ≤ b.toNat ∧ b.toNat ≤ 57 := by
  simp [isdigit, UInt8.le_iff_toNat_le]

theorem toNat_ofNat_digit {c : Char} (h : c.isDigit = true) :
    (UInt8.ofNat c.toNat).toNat = c.toNat ∧ 48 ≤ c.toNat ∧ c.toNat ≤ 57 := by
  obtain ⟨h1, h2⟩ := Bool.and_eq_true_iff.mp h
  have h1 : 48 ≤ c.toNat := UInt32.le_iff_toNat_le.mp (of_decide_eq_true h1)
  have h2 : c.toNat ≤ 57 := UInt32.le_iff_toNat_le.mp (of_decide_eq_true h2)
  refine ⟨?_, h1, h2⟩
  rw [UInt8.toNat_ofNat']
  omega

theorem isdigit_of_mem_decimal {n : Nat} {b : UInt8} (h : b ∈ decimal n) : isdigit b = true := by
  obtain ⟨c, hc, rfl⟩ := List.mem_map.mp h
  obtain ⟨hv, h1, h2⟩ := toNat_ofNat_digit (Nat.isDigit_of_mem_toDigits (by omega) (by omega) hc)
  rw [isdigit_iff, hv]
  exact ⟨h1, h2⟩

theorem decimal_ne_nil (n : Nat) : decimal n ≠ [] := by
  simp [decimal, Nat.toDigits_ne_nil]

theorem length_decimal_le_iff {n k : Nat} (hk : 0 < k) : (decimal n).length ≤ k ↔ n < 10 ^ k := by
  rw [decimal, List.length_map]
  exact Nat.length_toDigits_le_iff (by omega) hk

/-- **Reading a number's digits gives the number.** -/
theorem digitsValue_decimal (n : Nat) : digitsValue (decimal n) = n := by
  have hfold : ∀ (cs : List Char) (v : Nat), (∀ c ∈ cs, c.isDigit = true) →
      (cs.map fun c => UInt8.ofNat c.toNat).foldl (fun v b => 10 * v + (b.toNat - 48)) v =
        Nat.ofDigitChars 10 cs v := by
    intro cs
    induction cs with
    | nil => intro v _; rfl
    | cons c cs ih =>
      intro v h
      obtain ⟨hv, -, -⟩ := toNat_ofNat_digit (h c List.mem_cons_self)
      rw [List.map_cons, List.foldl_cons, hv, ih _ fun d hd => h d (List.mem_cons_of_mem c hd)]
      rfl
  unfold digitsValue decimal
  rw [hfold _ _ fun c hc => Nat.isDigit_of_mem_toDigits (by omega) (by omega) hc]
  exact Nat.ofDigitChars_toDigits (by omega) (by omega)

theorem decimal_injective : Function.Injective decimal := fun m n h => by
  rw [← digitsValue_decimal m, h, digitsValue_decimal]

/-- `%d`. -/
def percentD (n : Int) : Str := if n < 0 then 45 :: decimal n.natAbs else decimal n.natAbs

/-- `%<width>d`: padded with blanks on the left to at least `width` characters. -/
def percentDWidth (width : Nat) (n : Int) : Str :=
  List.replicate (width - (percentD n).length) 32 ++ percentD n

/-! ## Characters -/

/-- `isalpha` of the C locale. -/
def isalpha (b : UInt8) : Bool := (65 ≤ b && b ≤ 90) || (97 ≤ b && b ≤ 122)

/-- `tolower` of the C locale. -/
def tolower (b : UInt8) : UInt8 := if 65 ≤ b && b ≤ 90 then b + 32 else b

/-- `islower`. -/
def islower (b : UInt8) : Bool := 97 ≤ b && b ≤ 122

/-- `isspace` of the C locale. -/
def isspace (b : UInt8) : Bool := b == 32 || (9 ≤ b && b ≤ 13)

theorem isalpha_iff {b : UInt8} : isalpha b = true ↔
    (65 ≤ b.toNat ∧ b.toNat ≤ 90) ∨ (97 ≤ b.toNat ∧ b.toNat ≤ 122) := by
  simp [isalpha, UInt8.le_iff_toNat_le]

theorem islower_iff {b : UInt8} : islower b = true ↔ 97 ≤ b.toNat ∧ b.toNat ≤ 122 := by
  simp [islower, UInt8.le_iff_toNat_le]

theorem isspace_iff {b : UInt8} :
    isspace b = true ↔ b.toNat = 32 ∨ (9 ≤ b.toNat ∧ b.toNat ≤ 13) := by
  simp [isspace, UInt8.le_iff_toNat_le, ← UInt8.toNat_inj]

/-- A letter in lower case is a lower-case letter. -/
theorem islower_tolower {b : UInt8} (h : isalpha b = true) : islower (tolower b) = true := by
  rw [isalpha_iff] at h
  rw [islower_iff]
  unfold tolower
  split_ifs with hu
  · have : 65 ≤ b.toNat ∧ b.toNat ≤ 90 := by simpa [UInt8.le_iff_toNat_le] using hu
    rw [UInt8.toNat_add]
    simp only [UInt8.reduceToNat]
    omega
  · have : ¬ (65 ≤ b.toNat ∧ b.toNat ≤ 90) := by simpa [UInt8.le_iff_toNat_le] using hu
    omega

theorem isspace_of_islower {b : UInt8} (h : islower b = true) : isspace b = false := by
  rw [islower_iff] at h
  rw [← Bool.not_eq_true, isspace_iff]
  omega

/-- A number is written without a newline. -/
theorem newline_notMem_percentDWidth (width : Nat) (n : Int) : 10 ∉ percentDWidth width n := by
  have hdecimal : 10 ∉ decimal n.natAbs := fun h => absurd (isdigit_of_mem_decimal h) (by decide)
  have hpercentD : 10 ∉ percentD n := by
    unfold percentD
    split_ifs
    · exact List.not_mem_cons_of_ne_of_not_mem (by decide) hdecimal
    · exact hdecimal
  unfold percentDWidth
  rw [List.mem_append, not_or]
  exact ⟨fun h => absurd (List.eq_of_mem_replicate h) (by decide), hpercentD⟩

theorem isspace_of_isdigit {b : UInt8} (h : isdigit b = true) : isspace b = false := by
  rw [isdigit_iff] at h
  rw [← Bool.not_eq_true, isspace_iff]
  omega

/-! ## Comparison -/

/-- `strcmp`, of which the C standard fixes the sign only. -/
def strcmp : Str → Str → Int
  | [], [] => 0
  | [], _ :: _ => -1
  | _ :: _, [] => 1
  | a :: s, b :: t => if a < b then -1 else if b < a then 1 else strcmp s t

/-- **`strcmp` is the lexicographic order of the byte values.** -/
theorem strcmp_neg_iff : ∀ s t : Str, strcmp s t < 0 ↔ s.map UInt8.toNat < t.map UInt8.toNat
  | [], [] => by simp [strcmp]
  | [], _ :: _ => by simp [strcmp]
  | _ :: _, [] => by simp [strcmp]
  | a :: s, b :: t => by
    rw [strcmp, List.map_cons, List.map_cons, List.cons_lt_cons_iff, ← strcmp_neg_iff s t]
    simp only [UInt8.lt_iff_toNat_lt]
    split_ifs with h1 h2
    · exact iff_of_true (by decide) (Or.inl h1)
    · exact iff_of_false (by decide) (by omega)
    · have : a.toNat = b.toNat := by omega
      simp [this]

theorem strcmp_eq_zero_iff : ∀ s t : Str, strcmp s t = 0 ↔ s = t
  | [], [] => by simp [strcmp]
  | [], _ :: _ => by simp [strcmp]
  | _ :: _, [] => by simp [strcmp]
  | a :: s, b :: t => by
    rw [strcmp, List.cons_eq_cons, ← strcmp_eq_zero_iff s t, ← UInt8.toNat_inj]
    simp only [UInt8.lt_iff_toNat_lt]
    split_ifs with h1 h2
    · exact iff_of_false (by decide) (by omega)
    · exact iff_of_false (by decide) (by omega)
    · have : a.toNat = b.toNat := by omega
      simp [this]

theorem map_toNat_injective : Function.Injective (List.map UInt8.toNat) :=
  List.map_injective_iff.mpr fun _ _ => UInt8.toNat_inj.mp

end SystemProgramming.Lib
