import SystemProgramming.Shell.Tokenizer

/-!
# The buffer of the tokenizer

`tokenize` again, with the static buffer that it stores the bytes of a token in, which keeps what
earlier calls have left in it. A write outside of the buffer ends the run.

* `loop_rep`: the buffer holds the token of the scan, and no write leaves it.
* `scan_eq_none_iff`: on a line that `fgets` can deliver, which scans are aborted.
* `tokenizeStatic_iff`: `tokenize` returns on all such lines but those of 4095 bytes that are one
  token.
-/

namespace SystemProgramming.Shell

open Lib

/-- The variables of `tokenize`: `token` is the whole buffer, of which the first `n` bytes are the
token. -/
structure Locals where
  mode : Mode
  token : Str
  n : Nat
  tokens : List Str

namespace Locals

/-- `token[n++] = c`. -/
def put (v : Locals) (c : UInt8) : Option Locals :=
  if v.n < v.token.length then some { v with token := v.token.set v.n c, n := v.n + 1 } else none

end Locals

/-- `copy_word`: the buffer and the word. -/
def copyWord (source : Str) (n : Nat) : Option (Str × Str) :=
  if n < source.length then some (source.set n 0, cString ((source.set n 0).take (n + 1)))
  else none

namespace Locals

/-- `if (n > 0)`: `copy_word` and `vector_push`. -/
def endWord (v : Locals) : Option Locals :=
  if 0 < v.n then
    (copyWord v.token v.n).map fun r => { v with token := r.1, n := 0, tokens := v.tokens ++ [r.2] }
  else some v

/-- `if (i + 1 < line_length) token[n++] = line[++i]`. -/
def escape (line : Str) (lineLength i : Nat) (v : Locals) : Option (Nat × Locals) :=
  if (i + 1) % 2 ^ 32 < lineLength then
    (v.put (line.getD ((i + 1) % 2 ^ 32) 0)).map fun v => ((i + 1) % 2 ^ 32, v)
  else some (i, v)

/-- The body of the loop. -/
def body (line : Str) (lineLength i : Nat) (v : Locals) : Option (Nat × Locals) :=
  let c := line.getD i 0
  match v.mode with
  | .normal =>
    if c = 39 then some (i, { v with mode := .squote })
    else if c = 34 then some (i, { v with mode := .dquote })
    else if c = 92 then escape line lineLength i v
    else if isspace c then v.endWord.map fun v => (i, v)
    else (v.put c).map fun v => (i, v)
  | .squote =>
    if c = 39 then some (i, { v with mode := .normal })
    else if c = 92 then escape line lineLength i v
    else (v.put c).map fun v => (i, v)
  | .dquote =>
    if c = 34 then some (i, { v with mode := .normal })
    else if c = 92 then escape line lineLength i v
    else (v.put c).map fun v => (i, v)

end Locals

/-- How a call ends that may write outside of the buffer. -/
inductive Ending
  | overrun
  | ended (outcome : Outcome)
  deriving DecidableEq

/-- The loop, and what follows it. -/
def Locals.loop (line : Str) (lineLength : Nat) : Nat → Nat → Locals → Option Ending
  | 0, _, _ => none
  | fuel + 1, i, v =>
    if i < lineLength then
      match v.body line lineLength i with
      | none => some .overrun
      | some (i, v) =>
        if nMax ≤ v.n + 1 then some (.ended .aborted)
        else v.loop line lineLength fuel ((i + 1) % 2 ^ 32)
    else
      match v.endWord with
      | none => some .overrun
      | some v => some (.ended (.returned v.tokens))

/-- `tokenize`, with what the buffer holds before the call. -/
def tokenizeStatic (fuel : Nat) (token line : Str) : Option Ending :=
  Locals.loop line (cString line).length fuel 0 ⟨.normal, token, 0, []⟩

/-! ## The buffer holds the token -/

/-- The buffer, whose first `n` bytes are the token of the scan. -/
structure Rep (v : Locals) (s : Scan) : Prop where
  mode : v.mode = s.mode
  tokens : v.tokens = s.tokens
  size : v.token.length = nMax
  n : v.n = s.token.length
  bytes : v.token.take v.n = s.token

variable {v : Locals} {s : Scan} {line : Str} {b c : UInt8} {i lineLength : Nat}

theorem put_rep (h : Rep v s) (hroom : s.token.length < nMax) (c : UInt8) :
    ∃ v', v.put c = some v' ∧ Rep v' (s.put c) := by
  have hlt : v.n < v.token.length := by rw [h.n, h.size]; exact hroom
  refine ⟨_, if_pos hlt, h.mode, h.tokens, ?_, ?_, ?_⟩
  · rw [List.length_set, h.size]
  · rw [Scan.put, List.length_append, List.length_singleton, h.n]
  · rw [List.take_succ_eq_append_getElem (by rwa [List.length_set]), List.getElem_set_self,
      List.take_set_of_le (Nat.le_refl _), h.bytes]
    rfl

/-- The word that is copied ends with the NUL behind the token, or before. -/
theorem endWord_rep (h : Rep v s) (hroom : s.token.length < nMax) :
    ∃ v', v.endWord = some v' ∧ Rep v' s.endWord := by
  unfold Locals.endWord Scan.endWord
  rw [h.n]
  split_ifs with hpos
  · have hlt : s.token.length < v.token.length := h.size ▸ hroom
    have hword : cString ((v.token.set s.token.length 0).take (s.token.length + 1)) =
        cString s.token := by
      rw [List.take_succ_eq_append_getElem (by rwa [List.length_set]), List.getElem_set_self,
        List.take_set_of_le (Nat.le_refl _), ← h.n, h.bytes, cString_append_nul]
    rw [copyWord, if_pos hlt, hword, Option.map_some]
    exact ⟨_, rfl, h.mode, by rw [h.tokens], by rw [List.length_set, h.size], rfl, rfl⟩
  · exact ⟨v, rfl, h⟩

theorem escape_rep (h : Rep v s) (hroom : s.token.length < nMax) :
    ∃ v', Locals.escape line lineLength i v = some ((escape line lineLength i s).1, v') ∧
      Rep v' (escape line lineLength i s).2 := by
  unfold Locals.escape escape
  split_ifs
  · obtain ⟨v', hput, hrep⟩ := put_rep h hroom (line.getD ((i + 1) % 2 ^ 32) 0)
    exact ⟨v', by rw [hput]; rfl, hrep⟩
  · exact ⟨v, rfl, h⟩

/-- Only the mode changes. -/
theorem Rep.setMode (h : Rep v s) (m : Mode) : Rep { v with mode := m } { s with mode := m } :=
  ⟨rfl, h.tokens, h.size, h.n, h.bytes⟩

/-- **The body** does in the buffer what it does to the token of the scan. -/
theorem body_rep (line : Str) (lineLength i : Nat) (h : Rep v s) (hroom : s.token.length < nMax) :
    ∃ v', v.body line lineLength i = some ((body line lineLength i s).1, v') ∧
      Rep v' (body line lineLength i s).2 := by
  have hput : ∀ c, ∃ v', (v.put c).map (fun v => (i, v)) = some (i, v') ∧ Rep v' (s.put c) :=
    fun c => by
      obtain ⟨v', hrun, hrep⟩ := put_rep h hroom c
      exact ⟨v', by rw [hrun]; rfl, hrep⟩
  have hend : ∃ v', v.endWord.map (fun v => (i, v)) = some (i, v') ∧ Rep v' s.endWord := by
    obtain ⟨v', hrun, hrep⟩ := endWord_rep h hroom
    exact ⟨v', by rw [hrun]; rfl, hrep⟩
  unfold Locals.body body
  rw [h.mode]
  cases s.mode with
  | normal =>
    dsimp only
    split_ifs
    · exact ⟨_, rfl, h.setMode .squote⟩
    · exact ⟨_, rfl, h.setMode .dquote⟩
    · exact escape_rep h hroom
    · exact hend
    · exact hput _
  | squote | dquote =>
    dsimp only
    split_ifs
    · exact ⟨_, rfl, h.setMode .normal⟩
    · exact escape_rep h hroom
    · exact hput _

/-- **The loop** stays inside the buffer and ends as the loop over the scan does. -/
theorem loop_rep (fuel : Nat) : ∀ (i : Nat) (v : Locals) (s : Scan), Rep v s →
    s.token.length + 1 < nMax →
      v.loop line lineLength fuel i = (loop line lineLength fuel i s).map .ended := by
  induction fuel with
  | zero => exact fun i v s _ _ => rfl
  | succ fuel ih =>
    intro i v s h hroom
    rw [Locals.loop, loop]
    split_ifs with hi hfull
    · obtain ⟨v', hbody, hrep⟩ := body_rep line lineLength i h (by omega)
      rw [hbody]
      simp only
      rw [if_pos (by rw [hrep.n]; exact hfull)]
      rfl
    · obtain ⟨v', hbody, hrep⟩ := body_rep line lineLength i h (by omega)
      rw [hbody]
      simp only
      rw [if_neg (by rw [hrep.n]; exact hfull)]
      exact ih _ v' _ hrep (by omega)
    · obtain ⟨v', hend, hrep⟩ := endWord_rep h (by omega)
      rw [hend, Option.map_some, ← hrep.tokens]

/-- **No write leaves the buffer**, on any line. -/
theorem tokenizeStatic_eq (fuel : Nat) {token : Str} (htoken : token.length = nMax) (line : Str) :
    tokenizeStatic fuel token line = (tokenize fuel line).map .ended :=
  loop_rep fuel 0 _ _ ⟨rfl, rfl, htoken, rfl, rfl⟩ (by decide)

/-! ## Lines of the shell -/

theorem length_endWord_le (s : Scan) : s.endWord.token.length ≤ s.token.length := by
  unfold Scan.endWord
  split_ifs
  · exact Nat.zero_le _
  · exact Nat.le_refl _

/-- A byte that the mode does not take as it is adds nothing to the token. -/
theorem length_read_le (hc : c ≠ 92) (hplain : s.mode.plain c = false) :
    (s.read c).token.length ≤ s.token.length := by
  unfold Scan.read
  cases hm : s.mode with
  | normal =>
    have hbare : ¬ (c ≠ 39 ∧ c ≠ 34 ∧ c ≠ 92 ∧ isspace c = false) := fun h => by
      rw [hm] at hplain
      exact absurd (isBare_iff.mpr h) (by simpa [Mode.plain] using hplain)
    dsimp only
    split_ifs with h39 h34 hsp
    · exact Nat.le_refl _
    · exact Nat.le_refl _
    · exact length_endWord_le s
    · exact absurd ⟨h39, h34, hc, by simpa using hsp⟩ hbare
  | squote =>
    have h39 : c = 39 := by simpa [hm, Mode.plain, hc] using hplain
    simp [h39]
  | dquote =>
    have h34 : c = 34 := by simpa [hm, Mode.plain, hc] using hplain
    simp [h34]

theorem check_eq_none (h : nMax ≤ s.token.length + 1) : s.check = none := if_pos h

/-- **When the scan of the rest of a line is aborted**, if not more than 4095 bytes are left for the
token: every byte is stored, and the token gets 4095 of them. -/
theorem scan_eq_none_iff : ∀ (rest : Str) (s : Scan), s.token.length + 1 < nMax →
    s.token.length + rest.length ≤ 4095 →
      (scan rest s = none ↔
        s.token.length + rest.length = 4095 ∧ ∀ b ∈ rest, s.mode.plain b = true)
  | [], s, hroom, hlen => by
    simp only [nMax, List.length_nil] at hroom hlen ⊢
    simp only [scan, reduceCtorEq, false_iff]
    omega
  | c :: rest, s, hroom, hlen => by
    simp only [nMax, List.length_cons] at hroom hlen
    by_cases hc : c = 92
    · -- a backslash adds at most one byte to the token, and takes two from the line
      have hnot : ¬ (s.token.length + (c :: rest).length = 4095 ∧
          ∀ b ∈ c :: rest, s.mode.plain b = true) := fun h =>
        plain_ne (h.2 c List.mem_cons_self) hc
      subst hc
      refine iff_of_false ?_ hnot
      cases rest with
      | nil =>
        rw [scan, if_pos rfl, check_eq_some (by simp only [nMax]; omega)]
        simp
      | cons b rest =>
        have hput : (s.put b).token.length = s.token.length + 1 := by simp [Scan.put]
        rw [List.length_cons] at hlen
        rw [scan_escape, check_eq_some (by simp only [nMax]; omega), Option.bind_some,
          scan_eq_none_iff rest (s.put b) (by simp only [nMax]; omega) (by omega)]
        exact fun h => by omega
    · rw [scan_cons hc]
      cases hplain : s.mode.plain c with
      | true =>
        have hread : s.read c = s.put c := read_of_plain hplain
        have hput : (s.put c).token.length = s.token.length + 1 := by simp [Scan.put]
        rw [hread]
        by_cases hfull : nMax ≤ (s.put c).token.length + 1
        · rw [check_eq_none hfull]
          simp only [nMax] at hfull
          obtain rfl : rest = [] := List.eq_nil_of_length_eq_zero (by omega)
          exact iff_of_true rfl ⟨by simp only [List.length_singleton]; omega, by simpa using hplain⟩
        · have hmode : (s.put c).mode = s.mode := rfl
          rw [check_eq_some (by omega), Option.bind_some,
            scan_eq_none_iff rest (s.put c) (by omega) (by omega), hput, hmode,
            List.forall_mem_cons, List.length_cons, Nat.add_right_comm, Nat.add_assoc]
          exact and_congr_right fun _ => (and_iff_right hplain).symm
      | false =>
        have hle := length_read_le hc hplain
        rw [check_eq_some (by simp only [nMax]; omega), Option.bind_some,
          scan_eq_none_iff rest (s.read c) (by simp only [nMax]; omega) (by omega)]
        refine iff_of_false (fun h => by omega) fun h => ?_
        exact absurd (h.2 c List.mem_cons_self) (by simp [hplain])
  termination_by rest => rest.length

/-- How the call ends on a line of the shell. -/
theorem tokenizeStatic_eq_scan {token line : Str} (htoken : token.length = nMax) (hnul : 0 ∉ line)
    (hlen : line.length ≤ 4095) {fuel : Nat} (hfuel : line.length < fuel) :
    tokenizeStatic fuel token line =
      some (.ended (Outcome.ofScan (scan line ⟨.normal, [], []⟩))) := by
  rw [tokenizeStatic_eq fuel htoken, tokenize, cString_of_not_mem hnul,
    loop_eq_scan (by omega) fuel line _ 0 rfl (Nat.zero_le _) hfuel]
  rfl

/-- A line of 4095 bytes that are one token is aborted. -/
theorem scan_full {line : Str} (hlen : line.length = 4095)
    (hbare : ∀ b ∈ line, isBare b = true) : scan line ⟨.normal, [], []⟩ = none :=
  (scan_eq_none_iff line _ (by decide) (by rw [hlen]; decide)).mpr
    ⟨(Nat.zero_add _).trans hlen, hbare⟩

/-- **`tokenize` returns on exactly the lines of `fgets` that are not one token of 4095 bytes**, and
never writes outside of its buffer. -/
theorem tokenizeStatic_iff (token line : Str) (htoken : token.length = nMax) (hnul : 0 ∉ line)
    (hlen : line.length ≤ 4095) :
    ((∃ tokens n, ∀ fuel, n ≤ fuel →
        tokenizeStatic fuel token line = some (.ended (.returned tokens))) ∧
      ∀ fuel, tokenizeStatic fuel token line ≠ some .overrun) ↔
        ¬ (line.length = 4095 ∧ ∀ b ∈ line, isBare b = true) := by
  have hin : ∀ fuel, tokenizeStatic fuel token line ≠ some .overrun := fun fuel h => by
    rw [tokenizeStatic_eq fuel htoken, Option.map_eq_some_iff] at h
    obtain ⟨outcome, -, h⟩ := h
    exact absurd h (by simp)
  have hfull := scan_eq_none_iff line ⟨.normal, [], []⟩ (by decide) (by simpa using hlen)
  simp only [List.length_nil, Nat.zero_add, Mode.plain] at hfull
  rw [← hfull, and_iff_left hin]
  constructor
  · rintro ⟨tokens, n, hret⟩ hnone
    have h := hret (max n (line.length + 1)) (Nat.le_max_left ..)
    rw [tokenizeStatic_eq_scan htoken hnul hlen (by omega), hnone] at h
    exact absurd h (by simp [Outcome.ofScan])
  · intro hsome
    obtain ⟨s, hs⟩ := Option.ne_none_iff_exists'.mp hsome
    exact ⟨s.endWord.tokens, line.length + 1, fun fuel hfuel => by
      rw [tokenizeStatic_eq_scan htoken hnul hlen hfuel, hs]
      rfl⟩

/-- The line `ls`. -/
theorem tokenizeStatic_iff_ls :
    (List.replicate nMax (0 : UInt8)).length = nMax ∧ 0 ∉ bytes "ls\n" ∧
    (bytes "ls\n").length ≤ 4095 ∧
    (((∃ tokens n, ∀ fuel, n ≤ fuel →
        tokenizeStatic fuel (List.replicate nMax 0) (bytes "ls\n") =
          some (.ended (.returned tokens))) ∧
      ∀ fuel, tokenizeStatic fuel (List.replicate nMax 0) (bytes "ls\n") ≠ some .overrun) ↔
        ¬ ((bytes "ls\n").length = 4095 ∧ ∀ b ∈ bytes "ls\n", isBare b = true)) :=
  ⟨List.length_replicate, by decide, by decide,
    tokenizeStatic_iff _ _ List.length_replicate (by decide) (by decide)⟩

/-- A line of 4095 letters, which fills the buffer of `fgets`: `tokenize` aborts. -/
theorem tokenizeStatic_aborts :
    ¬ (∀ token line : Str, token.length = nMax → 0 ∉ line → line.length ≤ 4095 →
      (∃ tokens n, ∀ fuel, n ≤ fuel →
        tokenizeStatic fuel token line = some (.ended (.returned tokens))) ∧
      ∀ fuel, tokenizeStatic fuel token line ≠ some .overrun) ∧
    ∀ fuel, 4095 < fuel → tokenizeStatic fuel (List.replicate nMax 0) (List.replicate 4095 97) =
      some (.ended .aborted) := by
  have hnul : (0 : UInt8) ∉ List.replicate 4095 (97 : UInt8) := fun h =>
    absurd (List.eq_of_mem_replicate h) (by decide)
  have hbare : ∀ b ∈ List.replicate 4095 (97 : UInt8), isBare b = true := fun b hb => by
    rw [List.eq_of_mem_replicate hb]
    decide
  have hlen : (List.replicate 4095 (97 : UInt8)).length = 4095 := List.length_replicate
  have habort : ∀ fuel, 4095 < fuel → tokenizeStatic fuel (List.replicate nMax 0)
      (List.replicate 4095 97) = some (.ended .aborted) := fun fuel hfuel => by
    rw [tokenizeStatic_eq_scan List.length_replicate hnul hlen.le (hlen.trans_lt hfuel),
      scan_full hlen hbare]
    rfl
  refine ⟨fun hclaim => ?_, habort⟩
  obtain ⟨⟨tokens, n, hret⟩, -⟩ := hclaim (List.replicate nMax 0) _ List.length_replicate hnul
    hlen.le
  have h := (hret (max n 4096) (Nat.le_max_left ..)).symm.trans
    (habort _ (Nat.le_max_right n 4096))
  exact absurd h (by simp)

end SystemProgramming.Shell
