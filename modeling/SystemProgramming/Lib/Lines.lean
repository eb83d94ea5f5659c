import SystemProgramming.Lib.Bytes

/-!
# Reading by lines

`fgets` on a stream that holds the bytes still to come. A call reads up to the first newline, but no
more than the buffer has room for.

* `fgets_append`, `fgets_line`: a call splits the stream, and a line that fits is read whole.
* `fgetsAll_eq_iff`: the calls return the lines of a text iff all of them fit.
-/

namespace SystemProgramming.Lib

/-- `fgets` with a buffer of `n + 1` bytes: the bytes it reads, and those it leaves. -/
def fgets : Nat → Str → Str × Str
  | 0, s => ([], s)
  | _ + 1, [] => ([], [])
  | n + 1, b :: s => if b = 10 then ([b], s) else (b :: (fgets n s).1, (fgets n s).2)

theorem fgets_append (n : Nat) (s : Str) : (fgets n s).1 ++ (fgets n s).2 = s := by
  induction n, s using fgets.induct with
  | case1 s => rfl
  | case2 n => rfl
  | case3 n s => rfl
  | case4 n b s hb ih =>
    rw [fgets, if_neg hb]
    exact congrArg (b :: ·) ih

theorem length_fgets_le (n : Nat) (s : Str) : (fgets n s).1.length ≤ n := by
  induction n, s using fgets.induct with
  | case1 s => exact Nat.le_refl _
  | case2 n => exact Nat.zero_le _
  | case3 n s => exact Nat.succ_le_succ (Nat.zero_le n)
  | case4 n b s hb ih =>
    rw [fgets, if_neg hb]
    exact Nat.succ_le_succ ih

theorem length_fgets_lt (n : Nat) (b : UInt8) (s : Str) :
    (fgets (n + 1) (b :: s)).2.length < (b :: s).length := by
  have hsplit := congrArg List.length (fgets_append n s)
  rw [List.length_append] at hsplit
  have hle : (fgets n s).2.length ≤ s.length := by omega
  rw [fgets]
  split_ifs
  · exact Nat.lt_succ_self _
  · exact Nat.lt_succ_of_le hle

/-- **A line that fits** is read whole. -/
theorem fgets_line {body : Str} (h : 10 ∉ body) {n : Nat} (hn : body.length < n) (rest : Str) :
    fgets n (body ++ [10] ++ rest) = (body ++ [10], rest) := by
  induction body generalizing n with
  | nil =>
    obtain ⟨n, rfl⟩ : ∃ m, n = m + 1 := ⟨n - 1, by omega⟩
    rfl
  | cons b body ih =>
    obtain ⟨hb, hbody⟩ := not_or.mp (List.mem_cons.not.mp h)
    obtain ⟨n, rfl⟩ : ∃ m, n = m + 1 := ⟨n - 1, by omega⟩
    rw [List.length_cons] at hn
    rw [List.cons_append, List.cons_append, fgets, if_neg (Ne.symm hb), ih hbody (by omega)]

/-- What the calls with a buffer of `n + 2` bytes return, until nothing is left. -/
def fgetsAll (n : Nat) : Str → List Str
  | [] => []
  | b :: s => (fgets (n + 1) (b :: s)).1 :: fgetsAll n (fgets (n + 1) (b :: s)).2
  termination_by s => s.length
  decreasing_by exact length_fgets_lt n b s

/-- A line with its newline. -/
def IsLine (line : Str) : Prop := ∃ body, line = body ++ [10] ∧ 10 ∉ body

theorem length_le_of_mem_fgetsAll {n : Nat} {line s : Str} (h : line ∈ fgetsAll n s) :
    line.length ≤ n + 1 := by
  induction s using fgetsAll.induct n with
  | case1 => exact absurd h (by simp [fgetsAll])
  | case2 b s ih =>
    rw [fgetsAll] at h
    rcases List.mem_cons.mp h with rfl | h
    · exact length_fgets_le _ _
    · exact ih h

/-- **The calls return the lines of a text** iff all of them fit into the buffer. -/
theorem fgetsAll_eq_iff {n : Nat} {lines : List Str} (h : ∀ line ∈ lines, IsLine line) :
    fgetsAll n lines.flatten = lines ↔ ∀ line ∈ lines, line.length ≤ n + 1 := by
  refine ⟨fun he line hmem => length_le_of_mem_fgetsAll (he ▸ hmem), fun hfit => ?_⟩
  induction lines with
  | nil => rw [List.flatten_nil, fgetsAll]
  | cons line lines ih =>
    obtain ⟨⟨body, rfl, hbody⟩, hlines⟩ := List.forall_mem_cons.mp h
    obtain ⟨hline, hrest⟩ := List.forall_mem_cons.mp hfit
    rw [List.length_append, List.length_singleton] at hline
    have hread := fgets_line hbody (n := n + 1) (by omega) lines.flatten
    obtain ⟨b, s, hs⟩ : ∃ b s, body ++ [10] ++ lines.flatten = b :: s :=
      List.exists_cons_of_ne_nil (by simp)
    rw [List.flatten_cons, hs, fgetsAll, ← hs, hread, ih hlines hrest]

end SystemProgramming.Lib
