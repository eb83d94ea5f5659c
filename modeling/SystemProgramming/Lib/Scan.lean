import Mathlib.Data.List.DropRight
import Mathlib.Data.List.TakeWhile
import SystemProgramming.Lib.Bytes

/-!
# Formatted input

`fscanf` of the C library on the bytes still to be read, for formats made of white space,
`%<width>d` and `%ms`, in the C locale. Widths are taken to be small enough for the numbers to fit
an `int`.

* `length_scanf`: every conversion takes at least one byte.
* `scanf_skipSpace`: white space before a conversion does not matter.
* `scanInt_digits`: a run of digits is read up to the width.
* `scanf_percentMs`: a string is read up to the next white space.
-/

namespace SystemProgramming.Lib

/-- A directive of a format. -/
inductive Directive
  | space
  | percentD (width : Nat)
  | percentMs

/-- What a conversion assigns. -/
inductive Item
  | int (n : Int)
  | str (s : Str)
  deriving DecidableEq

/-- Why a directive fails: the input ends, or it does not match. -/
inductive ScanFailure
  | input
  | matching
  deriving DecidableEq

/-- What `fscanf` leaves behind: the items it has assigned, why it stopped early, and what is
still to be read. -/
structure Scanned where
  items : List Item
  failure : Option ScanFailure
  rest : Str
  deriving DecidableEq

/-- `EOF`. -/
def eof : Int := -1

/-- The value `fscanf` returns: `EOF` if the input ends before the first conversion, otherwise the
number of items assigned. -/
def Scanned.rv (r : Scanned) : Int :=
  if r.items = [] ∧ r.failure = some .input then eof else r.items.length

/-- An item assigned before the others. -/
def Scanned.cons (item : Item) (r : Scanned) : Scanned := { r with items := item :: r.items }

/-- A white-space directive. -/
def skipSpace (s : Str) : Str := s.dropWhile isspace

/-- A sign at the front, and what follows it. -/
def splitSign : Str → Str × Str
  | [] => ([], [])
  | b :: s => if b = 43 ∨ b = 45 then ([b], s) else ([], b :: s)

/-- The digits at the front, at most `width` of them. -/
def scanDigits (width : Nat) (s : Str) : Str := (s.takeWhile isdigit).take width

/-- `%<width>d` after white space: the number, if there is one, and what is left. The sign counts
for the width. -/
def scanInt (width : Nat) (s : Str) : Option Int × Str :=
  let sign := (splitSign s).1
  let ds := scanDigits (width - sign.length) (splitSign s).2
  (if ds = [] then none else some (if sign = [45] then -digitsValue ds else digitsValue ds),
    (splitSign s).2.drop ds.length)

/-- `fscanf`. -/
def scanf : List Directive → Str → Scanned
  | [], s => ⟨[], none, s⟩
  | .space :: format, s => scanf format (skipSpace s)
  | .percentD width :: format, s =>
    if skipSpace s = [] then ⟨[], some .input, []⟩
    else match scanInt width (skipSpace s) with
      | (some n, rest) => (scanf format rest).cons (.int n)
      | (none, rest) => ⟨[], some .matching, rest⟩
  | .percentMs :: format, s =>
    if skipSpace s = [] then ⟨[], some .input, []⟩
    else (scanf format ((skipSpace s).dropWhile fun b => !isspace b)).cons
      (.str ((skipSpace s).takeWhile fun b => !isspace b))

/-! ## White space -/

theorem skipSpace_append {pad : Str} (h : ∀ b ∈ pad, isspace b = true) (s : Str) :
    skipSpace (pad ++ s) = skipSpace s := List.dropWhile_append_of_pos h

theorem skipSpace_cons_space {b : UInt8} (h : isspace b = true) (s : Str) :
    skipSpace (b :: s) = skipSpace s := List.dropWhile_cons_of_pos h

theorem skipSpace_cons {b : UInt8} (h : isspace b = false) (s : Str) :
    skipSpace (b :: s) = b :: s := List.dropWhile_cons_of_neg (by simp [h])

theorem skipSpace_idem (s : Str) : skipSpace (skipSpace s) = skipSpace s := by
  unfold skipSpace
  rw [List.dropWhile_idempotent]

/-- What is left after white space does not start with white space. -/
theorem isspace_of_skipSpace {s : Str} {b : UInt8} {t : Str} (h : skipSpace s = b :: t) :
    isspace b = false := by
  have := List.head?_dropWhile_not isspace s
  rw [show s.dropWhile isspace = b :: t from h] at this
  simpa using this

/-- A conversion skips the white space before it. -/
theorem scanf_skipSpace {d : Directive} {format : List Directive} (s : Str) :
    scanf (d :: format) (skipSpace s) = scanf (d :: format) s := by
  cases d <;> simp only [scanf, skipSpace_idem]

theorem scanf_cons_space {b : UInt8} (h : isspace b = true) (d : Directive)
    (format : List Directive) (s : Str) : scanf (d :: format) (b :: s) = scanf (d :: format) s := by
  rw [← scanf_skipSpace, skipSpace_cons_space h, scanf_skipSpace]

/-- A white-space directive before a conversion does nothing. -/
theorem scanf_space (d : Directive) (format : List Directive) (s : Str) :
    scanf (.space :: d :: format) s = scanf (d :: format) s := by
  rw [scanf, scanf_skipSpace]

/-! ## Lengths -/

theorem length_skipSpace_le (s : Str) : (skipSpace s).length ≤ s.length :=
  (List.dropWhile_suffix _).length_le

theorem length_splitSign_le (s : Str) : (splitSign s).2.length ≤ s.length := by
  cases s with
  | nil => exact Nat.le_refl _
  | cons b s =>
    rw [splitSign]
    split_ifs
    · exact Nat.le_succ _
    · exact Nat.le_refl _

theorem length_scanInt {width : Nat} {s rest : Str} {n : Int}
    (h : scanInt width s = (some n, rest)) : rest.length < s.length := by
  unfold scanInt at h
  obtain ⟨hn, rfl⟩ := Prod.mk.inj h
  have hds : scanDigits (width - (splitSign s).1.length) (splitSign s).2 ≠ [] := fun hnil => by
    rw [if_pos hnil] at hn
    exact absurd hn (by simp)
  have hpos := List.length_pos_iff.mpr hds
  have hle : (scanDigits (width - (splitSign s).1.length) (splitSign s).2).length ≤
      (splitSign s).2.length := by
    refine Nat.le_trans ?_ (List.takeWhile_prefix (l := (splitSign s).2) isdigit).length_le
    exact (List.take_prefix _ _).length_le
  have := length_splitSign_le s
  rw [List.length_drop]
  omega

theorem length_scanInt_le (width : Nat) (s : Str) : (scanInt width s).2.length ≤ s.length := by
  have := length_splitSign_le s
  unfold scanInt
  rw [List.length_drop]
  omega

/-- **Every conversion takes at least one byte.** -/
theorem length_scanf (format : List Directive) (s : Str) :
    (scanf format s).rest.length + (scanf format s).items.length ≤ s.length := by
  induction format generalizing s with
  | nil => exact Nat.le_refl _
  | cons d format ih =>
    have hs := length_skipSpace_le s
    cases d with
    | space => exact Nat.le_trans (ih (skipSpace s)) hs
    | percentD width =>
      rw [scanf]
      split_ifs with hnil
      · exact Nat.zero_le _
      · split
        next n rest hn =>
          have h1 := length_scanInt hn
          have h2 := ih rest
          simp only [Scanned.cons, List.length_cons]
          omega
        next rest hn =>
          have h1 := length_scanInt_le width (skipSpace s)
          rw [hn] at h1
          exact Nat.le_trans h1 hs
    | percentMs =>
      rw [scanf]
      split_ifs with hnil
      · exact Nat.zero_le _
      · have h1 := ih ((skipSpace s).dropWhile fun b => !isspace b)
        have h2 : ((skipSpace s).dropWhile fun b => !isspace b).length < (skipSpace s).length := by
          obtain ⟨b, t, hbt⟩ := List.exists_cons_of_ne_nil hnil
          have hb : isspace b = false := by
            have := List.head?_dropWhile_not isspace s
            rw [show s.dropWhile isspace = b :: t from hbt] at this
            simpa using this
          rw [hbt, List.dropWhile_cons_of_pos (by simp [hb])]
          exact Nat.lt_succ_of_le (List.dropWhile_suffix _).length_le
        simp only [Scanned.cons, List.length_cons]
        omega

/-! ## Conversions -/

theorem splitSign_of_not_sign {b : UInt8} {s : Str} (h : b ≠ 43 ∧ b ≠ 45) :
    splitSign (b :: s) = ([], b :: s) := if_neg (by simpa using h)

theorem not_sign_of_isdigit {b : UInt8} (h : isdigit b = true) : b ≠ 43 ∧ b ≠ 45 := by
  rw [isdigit_iff] at h
  constructor
  · rintro rfl
    exact absurd h (by decide)
  · rintro rfl
    exact absurd h (by decide)

/-- The byte `s` starts with, if any, is no digit. -/
def NoDigit (s : Str) : Prop := ∀ b ∈ s.head?, isdigit b = false

theorem scanDigits_append {ds s : Str} (hds : ∀ b ∈ ds, isdigit b = true) (hs : NoDigit s)
    (width : Nat) : scanDigits width (ds ++ s) = ds.take width := by
  unfold scanDigits
  rw [List.takeWhile_append_of_pos hds]
  cases s with
  | nil => simp
  | cons b s => rw [List.takeWhile_cons_of_neg (by simp [hs b rfl]), List.append_nil]

/-- **A run of digits** is read up to the width; the other digits are left. -/
theorem scanInt_digits {ds s : Str} (hds : ∀ b ∈ ds, isdigit b = true) (hs : NoDigit s)
    {width : Nat} (hw : 0 < width) (hne : ds ≠ []) :
    scanInt width (ds ++ s) = (some (digitsValue (ds.take width) : Int), ds.drop width ++ s) := by
  have hsign : splitSign (ds ++ s) = ([], ds ++ s) := by
    cases ds with
    | nil => exact absurd rfl hne
    | cons b ds => exact splitSign_of_not_sign (not_sign_of_isdigit (hds b List.mem_cons_self))
  have htake : ds.take width ≠ [] := by
    rw [Ne, List.take_eq_nil_iff, not_or]
    exact ⟨by omega, hne⟩
  unfold scanInt
  simp only [hsign, List.length_nil, Nat.sub_zero, scanDigits_append hds hs, htake, if_false]
  refine Prod.ext ?_ ?_
  · simp
  · simp only [List.length_take]
    by_cases hlen : width ≤ ds.length
    · rw [Nat.min_eq_left hlen, List.drop_append_of_le_length hlen]
    · rw [Nat.min_eq_right (by omega), List.drop_left, List.drop_of_length_le (by omega),
        List.nil_append]

/-- A byte that is neither sign nor digit does not start a number. -/
theorem scanInt_none {b : UInt8} {s : Str} (hsign : b ≠ 43 ∧ b ≠ 45) (hb : isdigit b = false)
    (width : Nat) : scanInt width (b :: s) = (none, b :: s) := by
  unfold scanInt
  simp [splitSign_of_not_sign hsign, scanDigits, hb]

/-- **A string** is read up to the next white space. -/
theorem scanf_percentMs {w s : Str} (hw : ∀ b ∈ w, isspace b = false) (hne : w ≠ [])
    {sep : UInt8} (hsep : isspace sep = true) (format : List Directive) :
    scanf (.percentMs :: format) (w ++ sep :: s) = (scanf format (sep :: s)).cons (.str w) := by
  have hskip : skipSpace (w ++ sep :: s) = w ++ sep :: s := by
    cases w with
    | nil => exact absurd rfl hne
    | cons b w => exact skipSpace_cons (hw b List.mem_cons_self) _
  have hw' : ∀ b ∈ w, (!isspace b) = true := fun b hb => by rw [hw b hb]; rfl
  rw [scanf, hskip, if_neg (by simp [hne]), List.takeWhile_append_of_pos hw',
    List.dropWhile_append_of_pos hw', List.takeWhile_cons_of_neg (by simp [hsep]),
    List.dropWhile_cons_of_neg (by simp [hsep]), List.append_nil]

/-- **A number** after white space. -/
theorem scanf_percentD {pad ds s : Str} (hpad : ∀ b ∈ pad, isspace b = true)
    (hds : ∀ b ∈ ds, isdigit b = true) (hs : NoDigit s) {width : Nat} (hw : 0 < width)
    (hne : ds ≠ []) (format : List Directive) :
    scanf (.percentD width :: format) (pad ++ (ds ++ s)) =
      (scanf format (ds.drop width ++ s)).cons (.int (digitsValue (ds.take width))) := by
  have hskip : skipSpace (pad ++ (ds ++ s)) = ds ++ s := by
    rw [skipSpace_append hpad]
    cases ds with
    | nil => exact absurd rfl hne
    | cons b ds => exact skipSpace_cons (isspace_of_isdigit (hds b List.mem_cons_self)) _
  rw [scanf, hskip, if_neg (by simp [hne]), scanInt_digits hds hs hw hne]

/-- A conversion to a number fails on a byte that does not start one. -/
theorem scanf_percentD_matching {b : UInt8} {s : Str} (hb : isspace b = false)
    (hsign : b ≠ 43 ∧ b ≠ 45) (hd : isdigit b = false) (width : Nat) (format : List Directive) :
    scanf (.percentD width :: format) (b :: s) = ⟨[], some .matching, b :: s⟩ := by
  rw [scanf, skipSpace_cons hb, if_neg (List.cons_ne_nil b s), scanInt_none hsign hd]

end SystemProgramming.Lib
