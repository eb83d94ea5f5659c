import Mathlib.Algebra.Group.Nat.Defs
import SystemProgramming.Lib.Bytes

/-!
# The tokenizer

`tokenize` of `Shell/tokenizer.c`, for a line that is not `NULL`. The line index is an
`unsigned int` and its bound a `size_t`, so the index is taken modulo `2 ^ 32`, and the loop runs on
fuel. `abort` is an outcome of its own.

`Renders` says which lines a list of words can be written as.

* `loop_eq_scan`: on a line shorter than `2 ^ 32` bytes the loop is a scan of the rest of the line.
* `loop_wraps`: on a longer line it never returns.
* `tokenize_renders`: `tokenize` undoes the quoting, on exactly the lines shorter than `2 ^ 32`
  bytes.
-/

namespace SystemProgramming.Shell

open Lib

/-- `MODE_NORMAL`, `MODE_SQUOTE`, `MODE_DQUOTE`. -/
inductive Mode
  | normal
  | squote
  | dquote
  deriving DecidableEq

/-- `n_max`. -/
def nMax : Nat := 4096

/-- The variables of the scan: the mode, the first `n` bytes of `token`, and the tokens so far. -/
structure Scan where
  mode : Mode
  token : Str
  tokens : List Str
  deriving DecidableEq

namespace Scan

/-- `token[n++] = c`. -/
def put (s : Scan) (c : UInt8) : Scan := { s with token := s.token ++ [c] }

/-- `if (n > 0)`: `copy_word` and `vector_push`. The word ends at its first NUL. -/
def endWord (s : Scan) : Scan :=
  if 0 < s.token.length then { s with token := [], tokens := s.tokens ++ [cString s.token] } else s

end Scan

/-- `if (i + 1 < line_length) token[n++] = line[++i]`. -/
def escape (line : Str) (lineLength i : Nat) (s : Scan) : Nat × Scan :=
  if (i + 1) % 2 ^ 32 < lineLength then
    ((i + 1) % 2 ^ 32, s.put (line.getD ((i + 1) % 2 ^ 32) 0))
  else (i, s)

/-- The body of the loop: `i` and the variables of the scan after it. -/
def body (line : Str) (lineLength i : Nat) (s : Scan) : Nat × Scan :=
  let c := line.getD i 0
  match s.mode with
  | .normal =>
    if c = 39 then (i, { s with mode := .squote })
    else if c = 34 then (i, { s with mode := .dquote })
    else if c = 92 then escape line lineLength i s
    else if isspace c then (i, s.endWord)
    else (i, s.put c)
  | .squote =>
    if c = 39 then (i, { s with mode := .normal })
    else if c = 92 then escape line lineLength i s
    else (i, s.put c)
  | .dquote =>
    if c = 34 then (i, { s with mode := .normal })
    else if c = 92 then escape line lineLength i s
    else (i, s.put c)

/-- How a call of `tokenize` ends. -/
inductive Outcome
  | aborted
  | returned (tokens : List Str)
  deriving DecidableEq

/-- The loop, and what follows it. -/
def loop (line : Str) (lineLength : Nat) : Nat → Nat → Scan → Option Outcome
  | 0, _, _ => none
  | fuel + 1, i, s =>
    if i < lineLength then
      if nMax ≤ (body line lineLength i s).2.token.length + 1 then some .aborted
      else loop line lineLength fuel (((body line lineLength i s).1 + 1) % 2 ^ 32)
        (body line lineLength i s).2
    else some (.returned s.endWord.tokens)

/-- `tokenize`. -/
def tokenize (fuel : Nat) (line : Str) : Option Outcome :=
  loop line (cString line).length fuel 0 ⟨.normal, [], []⟩

/-! ## The scan of the rest of the line -/

/-- What a byte that is no backslash does. -/
def Scan.read (s : Scan) (c : UInt8) : Scan :=
  match s.mode with
  | .normal =>
    if c = 39 then { s with mode := .squote }
    else if c = 34 then { s with mode := .dquote }
    else if isspace c then s.endWord
    else s.put c
  | .squote => if c = 39 then { s with mode := .normal } else s.put c
  | .dquote => if c = 34 then { s with mode := .normal } else s.put c

/-- The test behind the body. -/
def Scan.check (s : Scan) : Option Scan := if nMax ≤ s.token.length + 1 then none else some s

/-- The loop over the rest of the line. `none` is `abort`. -/
def scan : Str → Scan → Option Scan
  | [], s => some s
  | [c], s => (if c = 92 then s else s.read c).check
  | c :: b :: rest, s =>
    if c = 92 then (s.put b).check.bind (scan rest) else (s.read c).check.bind (scan (b :: rest))

/-- A backslash means the same in all three modes. -/
theorem body_eq (line : Str) (n i : Nat) (s : Scan) :
    body line n i s = if line.getD i 0 = 92 then escape line n i s
      else (i, s.read (line.getD i 0)) := by
  unfold body Scan.read
  generalize line.getD i 0 = c
  by_cases hc : c = 92
  · subst hc
    cases s.mode <;> rfl
  · cases s.mode with
    | normal => simp only [hc, if_false]; split_ifs <;> rfl
    | squote => simp only [hc, if_false]; split_ifs <;> rfl
    | dquote => simp only [hc, if_false]; split_ifs <;> rfl

variable {line rest : Str} {s : Scan} {b c : UInt8} {i : Nat}

theorem scan_cons (hc : c ≠ 92) (rest : Str) (s : Scan) :
    scan (c :: rest) s = (s.read c).check.bind (scan rest) := by
  cases rest with
  | nil =>
    rw [scan, if_neg hc]
    cases (s.read c).check <;> rfl
  | cons b rest => rw [scan, if_neg hc]

theorem scan_escape (b : UInt8) (rest : Str) (s : Scan) :
    scan (92 :: b :: rest) s = (s.put b).check.bind (scan rest) := by
  rw [scan, if_pos rfl]

/-- How a call ends, from how its scan ends. -/
def Outcome.ofScan : Option Scan → Outcome
  | none => .aborted
  | some s => .returned s.endWord.tokens

/-- One iteration, with its test, on a line that is not too long. -/
theorem loop_succ {fuel : Nat} (hi : i < line.length) :
    loop line line.length (fuel + 1) i s = match (body line line.length i s).2.check with
      | none => some .aborted
      | some t => loop line line.length fuel (((body line line.length i s).1 + 1) % 2 ^ 32) t := by
  rw [loop, if_pos hi]
  unfold Scan.check
  split_ifs <;> rfl

/-- Reading the byte at `i`. -/
theorem getD_of_drop (h : line.drop i = c :: rest) :
    i < line.length ∧ line.getD i 0 = c ∧ line.drop (i + 1) = rest := by
  have hi : i < line.length := by
    by_contra hge
    rw [List.drop_eq_nil_of_le (by omega)] at h
    exact absurd h (by simp)
  rw [List.drop_eq_getElem_cons hi] at h
  obtain ⟨rfl, rfl⟩ := List.cons.inj h
  exact ⟨hi, by simp [hi], rfl⟩

/-- **On a line shorter than `2 ^ 32` bytes the loop is the scan.** -/
theorem loop_eq_scan (hlen : line.length < 2 ^ 32) (fuel : Nat) :
    ∀ (rest : Str) (s : Scan) (i : Nat), line.drop i = rest → i ≤ line.length →
      rest.length < fuel →
        loop line line.length fuel i s = some (Outcome.ofScan (scan rest s)) := by
  induction fuel with
  | zero =>
    intro rest s i _ _ hfuel
    exact absurd hfuel (Nat.not_lt_zero _)
  | succ fuel ih =>
    intro rest s i hrest hi hfuel
    cases rest with
    | nil =>
      have : line.length ≤ i := List.drop_eq_nil_iff.mp hrest
      rw [loop, if_neg (by omega), scan]
      rfl
    | cons c rest =>
      obtain ⟨hlt, hc, hrest'⟩ := getD_of_drop hrest
      rw [List.length_cons] at hfuel
      have hmod : (i + 1) % 2 ^ 32 = i + 1 := Nat.mod_eq_of_lt (by omega)
      rw [loop_succ hlt, body_eq, hc]
      by_cases h92 : c = 92
      · subst h92
        cases rest with
        | nil =>
          have : line.length ≤ i + 1 := List.drop_eq_nil_iff.mp hrest'
          rw [if_pos rfl, escape, hmod, if_neg (by omega), scan, if_pos rfl]
          dsimp only
          cases s.check with
          | none => rfl
          | some t =>
            dsimp only
            rw [hmod, ih [] t (i + 1) hrest' hlt (by omega)]
            rfl
        | cons b rest =>
          obtain ⟨hlt', hb, hrest''⟩ := getD_of_drop hrest'
          rw [List.length_cons] at hfuel
          rw [if_pos rfl, escape, hmod, if_pos hlt', scan_escape, hb]
          dsimp only
          cases (s.put b).check with
          | none => rfl
          | some t =>
            have hmod' : (i + 1 + 1) % 2 ^ 32 = i + 1 + 1 := Nat.mod_eq_of_lt (by omega)
            dsimp only
            rw [hmod']
            exact ih rest t _ hrest'' hlt' (by omega)
      · rw [if_neg h92, scan_cons h92]
        dsimp only
        cases (s.read c).check with
        | none => rfl
        | some t =>
          dsimp only
          rw [hmod]
          exact ih rest t _ hrest' hlt (by omega)

/-- **On a longer line the index wraps before it reaches the bound**: the loop never ends. -/
theorem loop_wraps {n : Nat} (hn : 2 ^ 32 ≤ n) (fuel : Nat) :
    ∀ (s : Scan) (i : Nat), i < 2 ^ 32 →
      ∀ tokens, loop line n fuel i s ≠ some (.returned tokens) := by
  induction fuel with
  | zero =>
    intro s i _ tokens h
    exact absurd h (by simp [loop])
  | succ fuel ih =>
    intro s i hi tokens
    rw [loop, if_pos (by omega)]
    split_ifs
    · simp
    · exact ih _ _ (Nat.mod_lt _ (by omega)) tokens

/-! ## Quoting -/

/-- A byte that may stand in a bare segment. -/
def isBare (b : UInt8) : Bool := b != 39 && b != 34 && b != 92 && !isspace b

/-- A part of a word in one style of quoting. -/
inductive Segment
  | bare (s : Str) (h : ∀ b ∈ s, isBare b = true)
  | escaped (b : UInt8)
  | single (s : Str)
  | double (s : Str)

/-- The text between two quotes `q`: a backslash before `q` and before a backslash. -/
def quoted (q : UInt8) (s : Str) : Str :=
  s.flatMap fun b => if b = q ∨ b = 92 then [92, b] else [b]

namespace Segment

/-- What the segment stands for. -/
def text : Segment → Str
  | bare s _ => s
  | escaped b => [b]
  | single s => s
  | double s => s

/-- How the segment is written. -/
def render : Segment → Str
  | bare s _ => s
  | escaped b => [92, b]
  | single s => 39 :: (quoted 39 s ++ [39])
  | double s => 34 :: (quoted 34 s ++ [34])

end Segment

/-- **The lines that the words can be written as.** A word is a concatenation of segments, there is
white space between two words, and there may be white space before the first and behind the last. -/
inductive Renders : List Str → Str → Prop
  | nil : Renders [] []
  | space {words : List Str} {line : Str} {b : UInt8} (hb : isspace b = true)
      (h : Renders words line) : Renders words (b :: line)
  | last (segments : List Segment) :
      Renders [segments.flatMap Segment.text] (segments.flatMap Segment.render)
  | word (segments : List Segment) {words : List Str} {line : Str} {b : UInt8}
      (hb : isspace b = true) (h : Renders words line) :
      Renders (segments.flatMap Segment.text :: words)
        (segments.flatMap Segment.render ++ b :: line)

/-! ## The scan of a word -/

/-- The bytes that a mode takes as they are. -/
def Mode.plain : Mode → UInt8 → Bool
  | .normal, b => isBare b
  | .squote, b => b != 39 && b != 92
  | .dquote, b => b != 34 && b != 92

theorem isBare_iff : isBare b = true ↔ b ≠ 39 ∧ b ≠ 34 ∧ b ≠ 92 ∧ isspace b = false := by
  simp [isBare, and_assoc]

theorem ne_of_isspace (h : isspace b = true) : b ≠ 39 ∧ b ≠ 34 ∧ b ≠ 92 := by
  refine ⟨?_, ?_, ?_⟩ <;> rintro rfl <;> exact absurd h (by decide)

theorem plain_ne {m : Mode} (h : m.plain b = true) : b ≠ 92 := by
  cases m with
  | normal => exact (isBare_iff.mp h).2.2.1
  | squote => exact (by simpa [Mode.plain] using h : b ≠ 39 ∧ b ≠ 92).2
  | dquote => exact (by simpa [Mode.plain] using h : b ≠ 34 ∧ b ≠ 92).2

theorem read_of_plain {m : Mode} {token : Str} {tokens : List Str} (h : m.plain b = true) :
    Scan.read ⟨m, token, tokens⟩ b = ⟨m, token ++ [b], tokens⟩ := by
  cases m with
  | normal =>
    obtain ⟨h39, h34, -, hsp⟩ := isBare_iff.mp h
    simp [Scan.read, Scan.put, h39, h34, hsp]
  | squote =>
    obtain ⟨h39, -⟩ : b ≠ 39 ∧ b ≠ 92 := by simpa [Mode.plain] using h
    simp [Scan.read, Scan.put, h39]
  | dquote =>
    obtain ⟨h34, -⟩ : b ≠ 34 ∧ b ≠ 92 := by simpa [Mode.plain] using h
    simp [Scan.read, Scan.put, h34]

theorem check_eq_some (h : s.token.length + 1 < nMax) : s.check = some s := if_neg (by omega)

variable {m m' : Mode} {token : Str} {tokens : List Str}

/-- A byte that the mode takes as it is. -/
theorem scan_plain (h : m.plain b = true) (hroom : token.length + 2 < nMax) (rest : Str) :
    scan (b :: rest) ⟨m, token, tokens⟩ = scan rest ⟨m, token ++ [b], tokens⟩ := by
  rw [scan_cons (plain_ne h), read_of_plain h, check_eq_some (by simpa using hroom),
    Option.bind_some]

/-- A byte behind a backslash. -/
theorem scan_escaped (b : UInt8) (hroom : token.length + 2 < nMax) (rest : Str) :
    scan (92 :: b :: rest) ⟨m, token, tokens⟩ = scan rest ⟨m, token ++ [b], tokens⟩ := by
  rw [scan_escape, Scan.put, check_eq_some (by simpa using hroom), Option.bind_some]

/-- A byte that only changes the mode. -/
theorem scan_switch {n : Mode} (hb : b ≠ 92)
    (h : Scan.read ⟨m, token, tokens⟩ b = ⟨n, token, tokens⟩) (hroom : token.length + 1 < nMax)
    (rest : Str) : scan (b :: rest) ⟨m, token, tokens⟩ = scan rest ⟨n, token, tokens⟩ := by
  rw [scan_cons hb, h, check_eq_some hroom, Option.bind_some]

/-- The text between two quotes. -/
theorem scan_quoted {q : UInt8} (hq : ∀ b, m.plain b = false ↔ b = q ∨ b = 92) (u : Str) :
    ∀ (token : Str), token.length + u.length + 1 < nMax → ∀ rest,
      scan (quoted q u ++ rest) ⟨m, token, tokens⟩ = scan rest ⟨m, token ++ u, tokens⟩ := by
  induction u with
  | nil =>
    intro token _ rest
    rw [quoted, List.flatMap_nil, List.nil_append, List.append_nil]
  | cons b u ih =>
    intro token hroom rest
    rw [List.length_cons] at hroom
    have hput : scan (quoted q (b :: u) ++ rest) ⟨m, token, tokens⟩ =
        scan (quoted q u ++ rest) ⟨m, token ++ [b], tokens⟩ := by
      rw [quoted, List.flatMap_cons]
      split_ifs with hb
      · exact scan_escaped b (by omega) _
      · have hplain : m.plain b = true := by
          rw [← Bool.not_eq_false, hq]
          exact hb
        exact scan_plain hplain (by omega) _
    rw [hput, ih _ (by rw [List.length_append, List.length_singleton]; omega), List.append_assoc,
      List.singleton_append]

theorem scan_bare {u : Str} (hu : ∀ b ∈ u, isBare b = true) :
    ∀ (token : Str), token.length + u.length + 1 < nMax → ∀ rest,
      scan (u ++ rest) ⟨.normal, token, tokens⟩ = scan rest ⟨.normal, token ++ u, tokens⟩ := by
  induction u with
  | nil =>
    intro token _ rest
    rw [List.nil_append, List.append_nil]
  | cons b u ih =>
    intro token hroom rest
    rw [List.length_cons] at hroom
    rw [List.cons_append, scan_plain (m := .normal) (hu b List.mem_cons_self) (by omega),
      ih (fun c hc => hu c (List.mem_cons_of_mem b hc)) _
        (by rw [List.length_append, List.length_singleton]; omega),
      List.append_assoc, List.singleton_append]

/-- **A segment** adds its text to the token and ends in the mode it began in. -/
theorem scan_segment (segment : Segment)
    (hroom : token.length + segment.text.length + 1 < nMax) (rest : Str) :
    scan (segment.render ++ rest) ⟨.normal, token, tokens⟩ =
      scan rest ⟨.normal, token ++ segment.text, tokens⟩ := by
  cases segment with
  | bare u hu => exact scan_bare hu token hroom rest
  | escaped b => exact scan_escaped b hroom rest
  | single u =>
    have hq : ∀ b, Mode.squote.plain b = false ↔ b = 39 ∨ b = 92 := fun b => by
      simp [Mode.plain, or_iff_not_imp_left]
    have hroom : token.length + u.length + 1 < nMax := hroom
    rw [Segment.render, List.cons_append, List.append_assoc,
      scan_switch (n := .squote) (by decide) rfl (by omega), scan_quoted hq u token hroom]
    exact scan_switch (by decide) rfl (by rw [List.length_append]; omega) rest
  | double u =>
    have hq : ∀ b, Mode.dquote.plain b = false ↔ b = 34 ∨ b = 92 := fun b => by
      simp [Mode.plain, or_iff_not_imp_left]
    have hroom : token.length + u.length + 1 < nMax := hroom
    rw [Segment.render, List.cons_append, List.append_assoc,
      scan_switch (n := .dquote) (by decide) rfl (by omega), scan_quoted hq u token hroom]
    exact scan_switch (by decide) rfl (by rw [List.length_append]; omega) rest

/-- **A word** is the text of its segments. -/
theorem scan_segments (segments : List Segment) :
    ∀ (token : Str), token.length + (segments.flatMap Segment.text).length + 1 < nMax → ∀ rest,
      scan (segments.flatMap Segment.render ++ rest) ⟨.normal, token, tokens⟩ =
        scan rest ⟨.normal, token ++ segments.flatMap Segment.text, tokens⟩ := by
  induction segments with
  | nil =>
    intro token _ rest
    rw [List.flatMap_nil, List.flatMap_nil, List.nil_append, List.append_nil]
  | cons segment segments ih =>
    intro token hroom rest
    rw [List.flatMap_cons, List.length_append] at hroom
    rw [List.flatMap_cons, List.flatMap_cons, List.append_assoc,
      scan_segment segment (by omega), ih _ (by rw [List.length_append]; omega), List.append_assoc]

/-! ## The whole line -/

/-- The words that `token` has room for. -/
structure IsWord (w : Str) : Prop where
  ne_nil : w ≠ []
  no_nul : 0 ∉ w
  short : w.length ≤ 4094

theorem endWord_nil (m : Mode) (tokens : List Str) :
    Scan.endWord ⟨m, [], tokens⟩ = ⟨m, [], tokens⟩ := rfl

theorem endWord_word {w : Str} (hw : IsWord w) (m : Mode) (tokens : List Str) :
    Scan.endWord ⟨m, w, tokens⟩ = ⟨m, [], tokens ++ [w]⟩ := by
  unfold Scan.endWord
  rw [if_pos (List.length_pos_iff.mpr hw.ne_nil), cString_of_not_mem hw.no_nul]

/-- White space ends the word before it. -/
theorem scan_space (hb : isspace b = true) (hroom : token.length + 1 < nMax) (rest : Str) :
    scan (b :: rest) ⟨.normal, token, tokens⟩ =
      scan rest (Scan.endWord ⟨.normal, token, tokens⟩) := by
  obtain ⟨h39, h34, h92⟩ := ne_of_isspace hb
  have hread : Scan.read ⟨.normal, token, tokens⟩ b = Scan.endWord ⟨.normal, token, tokens⟩ := by
    simp [Scan.read, h39, h34, hb]
  have hle : (Scan.endWord ⟨.normal, token, tokens⟩).token.length ≤ token.length := by
    unfold Scan.endWord
    split_ifs
    · exact Nat.zero_le _
    · exact Nat.le_refl _
  rw [scan_cons h92, hread, check_eq_some (by omega), Option.bind_some]

/-- A token that ends: if it is empty, nothing is added. -/
theorem endWord_eq {w : Str} (hw : w ≠ [] → IsWord w) (m : Mode) (tokens : List Str) :
    Scan.endWord ⟨m, w, tokens⟩ = ⟨m, [], tokens ++ [w].filter (· ≠ [])⟩ := by
  by_cases hne : w = []
  · subst hne
    rw [endWord_nil, List.filter_cons_of_neg (by simp), List.filter_nil, List.append_nil]
  · rw [endWord_word (hw hne), List.filter_cons_of_pos (by simpa using hne), List.filter_nil]

/-- The token has room for an empty word and for any other. -/
theorem length_le_of_isWord {w : Str} (hw : w ≠ [] → IsWord w) : w.length ≤ 4094 := by
  by_cases hne : w = []
  · simp [hne]
  · exact (hw hne).short

/-- **The scan of a line that renders the words** finds those that are not empty. -/
theorem scan_renders {words : List Str} (hr : Renders words line) :
    (∀ w ∈ words, w ≠ [] → IsWord w) → ∀ tokens, ∃ t,
      scan line ⟨.normal, [], tokens⟩ = some t ∧
        t.endWord.tokens = tokens ++ words.filter (· ≠ []) := by
  induction hr with
  | nil => exact fun _ tokens => ⟨_, rfl, by rw [endWord_nil, List.filter_nil, List.append_nil]⟩
  | space hb _ ih =>
    intro hw tokens
    rw [scan_space hb (by decide), endWord_nil]
    exact ih hw tokens
  | last segments =>
    intro hw tokens
    have hword := hw _ List.mem_cons_self
    have hrun : scan (segments.flatMap Segment.render ++ []) ⟨.normal, [], tokens⟩ =
        scan [] ⟨.normal, [] ++ segments.flatMap Segment.text, tokens⟩ :=
      scan_segments segments [] (by
        have := length_le_of_isWord hword
        simp only [List.length_nil, nMax]
        omega) []
    rw [List.append_nil, List.nil_append] at hrun
    exact ⟨_, hrun, by rw [endWord_eq hword]⟩
  | @word segments words line b hb _ ih =>
    intro hw tokens
    have hword := hw _ List.mem_cons_self
    have hshort := length_le_of_isWord hword
    obtain ⟨t, hrun, ht⟩ := ih (fun w hmem => hw w (List.mem_cons_of_mem _ hmem))
      (tokens ++ [segments.flatMap Segment.text].filter (· ≠ []))
    refine ⟨t, ?_, ?_⟩
    · rw [scan_segments segments [] (by simp only [List.length_nil, nMax]; omega), List.nil_append,
        scan_space hb (by simp only [nMax]; omega), endWord_eq hword, hrun]
    · rw [ht, List.append_assoc, ← List.filter_append, List.singleton_append]

/-- A segment is written with its own bytes, quotes and backslashes. -/
theorem mem_render {segment : Segment} (h : b ∈ segment.render) :
    b ∈ segment.text ∨ b = 39 ∨ b = 34 ∨ b = 92 := by
  have hquoted : ∀ {q : UInt8} {u : Str}, b ∈ quoted q u → b ∈ u ∨ b = 92 := fun {q u} hb => by
    obtain ⟨c, hc, hbc⟩ := List.mem_flatMap.mp hb
    split_ifs at hbc with hq
    · rcases List.mem_pair.mp hbc with rfl | rfl
      · exact Or.inr rfl
      · exact Or.inl hc
    · exact Or.inl (List.mem_singleton.mp hbc ▸ hc)
  cases segment with
  | bare u hu => exact Or.inl h
  | escaped c =>
    rcases List.mem_pair.mp h with rfl | rfl
    · exact Or.inr (Or.inr (Or.inr rfl))
    · exact Or.inl (List.mem_singleton.mpr rfl)
  | single u =>
    have h : b = 39 ∨ b ∈ quoted 39 u ∨ b = 39 := by simpa [Segment.render] using h
    have := @hquoted 39 u
    simp only [Segment.text]
    tauto
  | double u =>
    have h : b = 34 ∨ b ∈ quoted 34 u ∨ b = 34 := by simpa [Segment.render] using h
    have := @hquoted 34 u
    simp only [Segment.text]
    tauto

theorem nul_not_mem_segments {segments : List Segment} (h : 0 ∉ segments.flatMap Segment.text) :
    0 ∉ segments.flatMap Segment.render := by
  intro h0
  obtain ⟨segment, hmem, h0⟩ := List.mem_flatMap.mp h0
  rcases mem_render h0 with ht | ht | ht | ht
  · exact h (List.mem_flatMap.mpr ⟨segment, hmem, ht⟩)
  · exact absurd ht (by decide)
  · exact absurd ht (by decide)
  · exact absurd ht (by decide)

/-- A line that renders words is one C string. -/
theorem Renders.no_nul {words : List Str} (hr : Renders words line) :
    (∀ w ∈ words, 0 ∉ w) → 0 ∉ line := by
  have hspace : ∀ {b : UInt8}, isspace b = true → 0 ≠ b := fun hb => by
    rintro rfl
    exact absurd hb (by decide)
  induction hr with
  | nil => exact fun _ => List.not_mem_nil
  | space hb _ ih =>
    exact fun hw => List.not_mem_cons_of_ne_of_not_mem (hspace hb) (ih hw)
  | last segments => exact fun hw => nul_not_mem_segments (hw _ List.mem_cons_self)
  | word segments hb _ ih =>
    intro hw h0
    rcases List.mem_append.mp h0 with h0 | h0
    · exact nul_not_mem_segments (hw _ List.mem_cons_self) h0
    · exact List.not_mem_cons_of_ne_of_not_mem (hspace hb)
        (ih fun w hmem => hw w (List.mem_cons_of_mem _ hmem)) h0

/-- **`tokenize` finds the words that are not empty**, on exactly the lines shorter than `2 ^ 32`
bytes. On a longer line it returns nothing. -/
theorem tokenize_eq {words : List Str} (hr : Renders words line)
    (hw : ∀ w ∈ words, w ≠ [] → IsWord w) :
    (line.length < 2 ^ 32 → ∀ fuel, line.length < fuel →
      tokenize fuel line = some (.returned (words.filter (· ≠ [])))) ∧
    (2 ^ 32 ≤ line.length → ∀ fuel tokens, tokenize fuel line ≠ some (.returned tokens)) := by
  have hnul : ∀ w ∈ words, 0 ∉ w := fun w hmem => by
    by_cases hne : w = []
    · simp [hne]
    · exact (hw w hmem hne).no_nul
  unfold tokenize
  rw [cString_of_not_mem (hr.no_nul hnul)]
  refine ⟨fun hlen fuel hfuel => ?_, fun hlen fuel => loop_wraps hlen fuel _ 0 (by decide)⟩
  obtain ⟨t, hscan, ht⟩ := scan_renders hr hw []
  rw [loop_eq_scan hlen fuel line _ 0 rfl (Nat.zero_le _) hfuel, hscan, Outcome.ofScan, ht,
    List.nil_append]

/-- **`tokenize` undoes the quoting, on exactly the lines shorter than `2 ^ 32` bytes.** -/
theorem tokenize_renders (words : List Str) (line : Str) (hw : ∀ w ∈ words, IsWord w)
    (hr : Renders words line) :
    (∃ n, ∀ fuel, n ≤ fuel → tokenize fuel line = some (.returned words)) ↔
      line.length < 2 ^ 32 := by
  obtain ⟨hshort, hlong⟩ := tokenize_eq hr fun w hmem _ => hw w hmem
  have hall : words.filter (· ≠ []) = words :=
    List.filter_eq_self.mpr fun w hmem => by simpa using (hw w hmem).ne_nil
  rw [hall] at hshort
  constructor
  · rintro ⟨n, hret⟩
    by_contra hlen
    exact hlong (Nat.le_of_not_lt hlen) n words (hret n (Nat.le_refl n))
  · exact fun hlen => ⟨line.length + 1, hshort hlen⟩

/-- A line with two words, in all styles of quoting. -/
theorem tokenize_renders_two :
    (∀ w ∈ [bytes "ab'", bytes "c d\""], IsWord w) ∧
    Renders [bytes "ab'", bytes "c d\""] (bytes " a'b\\''\"\" \tc\\ \"d\\\"\"") ∧
    ((∃ n, ∀ fuel, n ≤ fuel → tokenize fuel (bytes " a'b\\''\"\" \tc\\ \"d\\\"\"") =
      some (.returned [bytes "ab'", bytes "c d\""])) ↔
        (bytes " a'b\\''\"\" \tc\\ \"d\\\"\"").length < 2 ^ 32) := by
  have hw : ∀ w ∈ [bytes "ab'", bytes "c d\""], IsWord w := by
    simp only [List.mem_cons, List.not_mem_nil, or_false, forall_eq_or_imp, forall_eq]
    exact ⟨⟨by decide, by decide, by decide⟩, ⟨by decide, by decide, by decide⟩⟩
  have hbare : ∀ b : UInt8, isBare b = true → ∀ c ∈ [b], isBare c = true := fun b hb c hc => by
    rwa [List.mem_singleton.mp hc]
  have hr : Renders [bytes "ab'", bytes "c d\""] (bytes " a'b\\''\"\" \tc\\ \"d\\\"\"") :=
    .space (b := 32) (by decide)
      (.word [.bare (bytes "a") (hbare 97 (by decide)), .single (bytes "b'"), .double []]
        (b := 32) (by decide)
        (.space (b := 9) (by decide)
          (.last [.bare (bytes "c") (hbare 99 (by decide)), .escaped 32, .double (bytes "d\"")])))
  exact ⟨hw, hr, tokenize_renders _ _ hw hr⟩

theorem renders_blank (n : Nat) : Renders [] (List.replicate n 32) := by
  induction n with
  | zero => exact .nil
  | succ n ih => exact .space (by decide) ih

/-- A word with `2 ^ 32 - 1` blanks behind it: `tokenize` never returns. -/
theorem tokenize_wraps :
    ¬ (∀ words line, (∀ w ∈ words, IsWord w) → Renders words line →
      ∃ n, ∀ fuel, n ≤ fuel → tokenize fuel line = some (.returned words)) ∧
    ∀ fuel tokens, tokenize fuel (97 :: List.replicate (2 ^ 32 - 1) 32) ≠
      some (.returned tokens) := by
  have hw : ∀ w ∈ [([97] : Str)], IsWord w := by
    rintro w hmem
    obtain rfl := List.mem_singleton.mp hmem
    exact ⟨by decide, by decide, by decide⟩
  have hbare : ∀ b ∈ ([97] : Str), isBare b = true := fun b hb => by
    rw [List.mem_singleton.mp hb]
    decide
  have hr : Renders [[97]] (97 :: List.replicate (2 ^ 32 - 1) 32) := by
    rw [show 2 ^ 32 - 1 = 2 ^ 32 - 2 + 1 by decide, List.replicate_succ]
    exact .word [.bare [97] hbare] (b := 32) (by decide) (renders_blank _)
  have hlong : ∀ fuel tokens, tokenize fuel (97 :: List.replicate (2 ^ 32 - 1) 32) ≠
      some (.returned tokens) := by
    refine (tokenize_eq hr fun w hmem _ => hw w hmem).2 ?_
    rw [List.length_cons, List.length_replicate]
    omega
  refine ⟨fun hclaim => ?_, hlong⟩
  obtain ⟨n, hn⟩ := hclaim [[97]] _ hw hr
  exact hlong n _ (hn n (Nat.le_refl n))

end SystemProgramming.Shell
