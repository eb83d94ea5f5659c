import SystemProgramming.Words.Counts

/-!
# `merge_counts` byte by byte

`fscanf` reads through a buffer that `read` fills when it is empty, so `merge_counts` sees the bytes
of a pipe as they come. A `Reader` is its loop between two bytes: the list, and the place in the
format. A byte that does not match ends the loop at once, and what comes after it is never asked
for.

* `foldl_feed_failed`: a reader that has failed stays as it is.
* `finish_foldl_feed`: fed the bytes of a stream and then its end, the reader has done what
  `merge_counts` does on the whole of it.
-/

namespace SystemProgramming.Words

open Lib

/-- The place in `"%8d\t%ms\n"`. -/
inductive Place
  /-- Before `%8d`. -/
  | line
  /-- In `%8d`, after the sign, if there is one, and some digits. -/
  | number (sign ds : Str)
  /-- Between the count and `%ms`. -/
  | tab (count : Int)
  /-- In `%ms`. -/
  | word (count : Int) (w : Str)
  /-- After a byte that does not match. -/
  | failed
  deriving DecidableEq

/-- `merge_counts` between two bytes. -/
structure Reader where
  wclist : List WordCount
  place : Place
  deriving DecidableEq

/-- The number that `%8d` assigns. -/
def signedValue (sign ds : Str) : Int := if sign = [45] then -digitsValue ds else digitsValue ds

/-- A byte before `%ms`. -/
def Place.afterCount (count : Int) (b : UInt8) : Place :=
  if isspace b = true then .tab count else .word count [b]

/-- A byte of the stream. The byte after a number is also the first one after `%8d`. -/
def Reader.feed (r : Reader) (b : UInt8) : Reader :=
  match r.place with
  | .line =>
    if isspace b = true then r
    else if b = 43 ∨ b = 45 then { r with place := .number [b] [] }
    else if isdigit b = true then { r with place := .number [] [b] }
    else { r with place := .failed }
  | .number sign ds =>
    if isdigit b = true ∧ ds.length < 8 - sign.length then
      { r with place := .number sign (ds ++ [b]) }
    else if ds = [] then { r with place := .failed }
    else { r with place := .afterCount (signedValue sign ds) b }
  | .tab count => { r with place := .afterCount count b }
  | .word count w =>
    if isspace b = true then ⟨Pintos.addWordWithCount r.wclist w count, .line⟩
    else { r with place := .word count (w ++ [b]) }
  | .failed => r

/-- The end of the loop, at the end of the stream or after a byte that does not match: the list, and
what the last `fscanf` returns. -/
def Reader.last (r : Reader) : List WordCount × Int :=
  match r.place with
  | .line => (r.wclist, eof)
  | .number _ ds => (r.wclist, if ds = [] then 0 else 1)
  | .tab _ => (r.wclist, 1)
  | .word count w => (Pintos.addWordWithCount r.wclist w count, eof)
  | .failed => (r.wclist, 0)

/-- What `merge_counts` leaves behind. -/
def Reader.finish (r : Reader) : List WordCount × List Diagnostic :=
  (r.last.1, mergeDiagnostics r.last.2 true)

/-- **A reader that has failed** asks for nothing more. -/
theorem foldl_feed_failed (wclist : List WordCount) (s : Str) :
    s.foldl Reader.feed ⟨wclist, .failed⟩ = ⟨wclist, .failed⟩ := by
  induction s with
  | nil => rfl
  | cons b s ih => exact ih

variable (wclist : List WordCount)

/-! ## Directive by directive -/

/-- White space before a line. -/
theorem foldl_feed_line (s : Str) :
    s.foldl Reader.feed ⟨wclist, .line⟩ = (skipSpace s).foldl Reader.feed ⟨wclist, .line⟩ := by
  induction s with
  | nil => rfl
  | cons b s ih =>
    by_cases hb : isspace b = true
    · have hfeed : Reader.feed ⟨wclist, .line⟩ b = ⟨wclist, .line⟩ := if_pos hb
      rw [skipSpace_cons_space hb, List.foldl_cons, hfeed, ih]
    · rw [skipSpace_cons (by simpa using hb)]

/-- White space before a word. -/
theorem foldl_feed_tab (count : Int) (s : Str) :
    s.foldl Reader.feed ⟨wclist, .tab count⟩ =
      (skipSpace s).foldl Reader.feed ⟨wclist, .tab count⟩ := by
  induction s with
  | nil => rfl
  | cons b s ih =>
    by_cases hb : isspace b = true
    · have hfeed : Reader.feed ⟨wclist, .tab count⟩ b = ⟨wclist, .tab count⟩ := by
        show (⟨wclist, Place.afterCount count b⟩ : Reader) = _
        rw [Place.afterCount, if_pos hb]
      rw [skipSpace_cons_space hb, List.foldl_cons, hfeed, ih]
    · rw [skipSpace_cons (by simpa using hb)]

/-- A word ends at white space, or at the end of the stream. -/
theorem finish_word (count : Int) (w s : Str) :
    (s.foldl Reader.feed ⟨wclist, .word count w⟩).finish =
      ((s.dropWhile fun b => !isspace b).foldl Reader.feed
        ⟨Pintos.addWordWithCount wclist (w ++ s.takeWhile fun b => !isspace b) count,
          .line⟩).finish := by
  induction s generalizing w with
  | nil => simp only [List.takeWhile_nil, List.append_nil]; rfl
  | cons b s ih =>
    by_cases hb : isspace b = true
    · have hfeed : Reader.feed ⟨wclist, .word count w⟩ b =
          ⟨Pintos.addWordWithCount wclist w count, .line⟩ := if_pos hb
      rw [List.dropWhile_cons_of_neg (by simp [hb]), List.takeWhile_cons_of_neg (by simp [hb]),
        List.append_nil, List.foldl_cons, hfeed, foldl_feed_line _ (b :: s),
        skipSpace_cons_space hb, ← foldl_feed_line]
    · have hfeed : Reader.feed ⟨wclist, .word count w⟩ b = ⟨wclist, .word count (w ++ [b])⟩ :=
        if_neg hb
      rw [List.dropWhile_cons_of_pos (by simp [hb]), List.takeWhile_cons_of_pos (by simp [hb]),
        List.foldl_cons, hfeed, ih, List.append_assoc, List.singleton_append]

/-- `%ms`, and the rest of the stream. -/
theorem finish_tab {s : Str} {b : UInt8} {t : Str} (hs : skipSpace s = b :: t)
    (hb : isspace b = false) (count : Int) :
    (s.foldl Reader.feed ⟨wclist, .tab count⟩).finish =
      (((b :: t).dropWhile fun b => !isspace b).foldl Reader.feed
        ⟨Pintos.addWordWithCount wclist ((b :: t).takeWhile fun b => !isspace b) count,
          .line⟩).finish := by
  have hfeed : Reader.feed ⟨wclist, .tab count⟩ b = ⟨wclist, .word count [b]⟩ := by
    show (⟨wclist, Place.afterCount count b⟩ : Reader) = _
    rw [Place.afterCount, if_neg (by simp [hb])]
  rw [foldl_feed_tab, hs, List.foldl_cons, hfeed, finish_word,
    List.dropWhile_cons_of_pos (by simp [hb]), List.takeWhile_cons_of_pos (by simp [hb]),
    List.singleton_append]

/-- The digits of a number, up to the width. -/
theorem finish_number (sign ds s : Str) (hlen : ds.length ≤ 8 - sign.length) :
    (s.foldl Reader.feed ⟨wclist, .number sign ds⟩).finish =
      if ds ++ scanDigits (8 - sign.length - ds.length) s = [] then
        (wclist, mergeDiagnostics 0 true)
      else
        ((s.drop (scanDigits (8 - sign.length - ds.length) s).length).foldl Reader.feed
          ⟨wclist, .tab (signedValue sign
            (ds ++ scanDigits (8 - sign.length - ds.length) s))⟩).finish := by
  induction s generalizing ds with
  | nil =>
    have hnil : scanDigits (8 - sign.length - ds.length) [] = [] := by simp [scanDigits]
    simp only [hnil, List.append_nil, List.foldl_nil, List.drop_nil]
    by_cases hds : ds = []
    · rw [if_pos hds, hds]
      rfl
    · rw [if_neg hds]
      simp only [Reader.finish, Reader.last, if_neg hds]
  | cons b s ih =>
    by_cases hb : isdigit b = true ∧ ds.length < 8 - sign.length
    · have hfeed : Reader.feed ⟨wclist, .number sign ds⟩ b = ⟨wclist, .number sign (ds ++ [b])⟩ :=
        if_pos hb
      have hscan : scanDigits (8 - sign.length - ds.length) (b :: s) =
          b :: scanDigits (8 - sign.length - (ds ++ [b]).length) s := by
        have hwidth : 8 - sign.length - ds.length =
            8 - sign.length - (ds ++ [b]).length + 1 := by
          rw [List.length_append, List.length_singleton]
          omega
        rw [scanDigits, List.takeWhile_cons_of_pos hb.1, hwidth, List.take_succ_cons]
        rfl
      have hlen' : (ds ++ [b]).length ≤ 8 - sign.length := by
        rw [List.length_append, List.length_singleton]
        omega
      rw [List.foldl_cons, hfeed, ih _ hlen', hscan, List.append_assoc, List.singleton_append,
        List.length_cons, List.drop_succ_cons]
    · have hscan : scanDigits (8 - sign.length - ds.length) (b :: s) = [] := by
        by_cases hd : isdigit b = true
        · have hwidth : 8 - sign.length - ds.length = 0 := by
            have : ¬ ds.length < 8 - sign.length := fun h => hb ⟨hd, h⟩
            omega
          rw [scanDigits, hwidth, List.take_zero]
        · rw [scanDigits, List.takeWhile_cons_of_neg hd, List.take_nil]
      rw [hscan, List.append_nil, List.length_nil, List.drop_zero, List.foldl_cons, List.foldl_cons]
      by_cases hds : ds = []
      · have hfeed : Reader.feed ⟨wclist, .number sign ds⟩ b = ⟨wclist, .failed⟩ := by
          show (if _ then _ else if _ then _ else _) = _
          rw [if_neg hb, if_pos hds]
        rw [if_pos hds, hfeed, foldl_feed_failed]
        rfl
      · have hfeed : Reader.feed ⟨wclist, .number sign ds⟩ b =
            Reader.feed ⟨wclist, .tab (signedValue sign ds)⟩ b := by
          show (if _ then _ else if _ then _ else _) = _
          rw [if_neg hb, if_neg hds]
          rfl
        rw [if_neg hds, hfeed]

/-- `%8d`, and the rest of the stream. -/
theorem finish_count {b : UInt8} (hb : isspace b = false) (t : Str) :
    ((b :: t).foldl Reader.feed ⟨wclist, .line⟩).finish =
      match scanInt 8 (b :: t) with
      | (some n, rest) => (rest.foldl Reader.feed ⟨wclist, .tab n⟩).finish
      | (none, _) => (wclist, mergeDiagnostics 0 true) := by
  have hspace : ¬ isspace b = true := by simp [hb]
  rw [List.foldl_cons]
  by_cases hsign : b = 43 ∨ b = 45
  · have hfeed : Reader.feed ⟨wclist, .line⟩ b = ⟨wclist, .number [b] []⟩ := by
      show (if _ then _ else if _ then _ else _) = _
      rw [if_neg hspace, if_pos hsign]
    rw [hfeed, finish_number _ _ _ _ (Nat.zero_le _), scanInt, splitSign, if_pos hsign]
    simp only [List.nil_append, List.length_nil, Nat.sub_zero]
    by_cases hds : scanDigits (8 - [b].length) t = []
    · rw [if_pos hds, if_pos hds]
    · rw [if_neg hds, if_neg hds]
      rfl
  · have hsplit : splitSign (b :: t) = ([], b :: t) := splitSign_of_not_sign (by simpa using hsign)
    rw [scanInt, hsplit]
    simp only [List.length_nil, Nat.sub_zero]
    by_cases hd : isdigit b = true
    · have hfeed : Reader.feed ⟨wclist, .line⟩ b = ⟨wclist, .number [] [b]⟩ := by
        show (if _ then _ else if _ then _ else if _ then _ else _) = _
        rw [if_neg hspace, if_neg hsign, if_pos hd]
      have hscan : scanDigits 8 (b :: t) = b :: scanDigits 7 t := by
        rw [scanDigits, List.takeWhile_cons_of_pos hd, List.take_succ_cons]
        rfl
      have hnumber := finish_number wclist [] [b] t (by simp)
      simp only [List.length_nil, List.length_singleton, List.singleton_append] at hnumber
      rw [hfeed, hnumber, hscan, if_neg (List.cons_ne_nil _ _), if_neg (List.cons_ne_nil _ _)]
      rfl
    · have hfeed : Reader.feed ⟨wclist, .line⟩ b = ⟨wclist, .failed⟩ := by
        show (if _ then _ else if _ then _ else if _ then _ else _) = _
        rw [if_neg hspace, if_neg hsign, if_neg hd]
      have hscan : scanDigits 8 (b :: t) = [] := by
        rw [scanDigits, List.takeWhile_cons_of_neg hd, List.take_nil]
      rw [hfeed, foldl_feed_failed, hscan, if_pos rfl]
      rfl

/-! ## The whole stream -/

/-- The end of `merge_counts` is the end of its loop. -/
theorem mergeCounts_of_rv {s : Stream} (rv : Int)
    (h : ∀ count word, (scanf countFormat s).items ≠ [.int count, .str word])
    (hrv : (scanf countFormat s).rv = rv) :
    ((mergeCounts true wclist s).wclist, (mergeCounts true wclist s).stderr) =
      (wclist, mergeDiagnostics rv true) := by
  rw [mergeCounts_stop h, hrv]

/-- **Byte by byte or as a whole**: the reader leaves behind what `merge_counts` leaves behind. -/
theorem finish_foldl_feed (s : Stream) :
    (s.foldl Reader.feed ⟨wclist, .line⟩).finish =
      ((mergeCounts true wclist s).wclist, (mergeCounts true wclist s).stderr) := by
  -- on the length of the stream: every line takes at least one byte
  induction hn : s.length using Nat.strong_induction_on generalizing s wclist with
  | h n ih =>
    rw [foldl_feed_line]
    cases hs : skipSpace s with
    | nil =>
      have hscan : scanf countFormat s = ⟨[], some .input, []⟩ := by
        rw [countFormat, scanf, if_pos hs]
      rw [mergeCounts_of_rv wclist eof (fun c w => by rw [hscan]; simp) (by rw [hscan]; rfl)]
      rfl
    | cons b t =>
      have hb := isspace_of_skipSpace hs
      have hlen : (b :: t).length ≤ s.length := hs ▸ length_skipSpace_le s
      rw [finish_count wclist hb]
      cases hint : scanInt 8 (b :: t) with
      | mk number rest =>
      cases number with
      | none =>
        have hscan : scanf countFormat s = ⟨[], some .matching, rest⟩ := by
          rw [countFormat, scanf, if_neg (by rw [hs]; simp), hs, hint]
        rw [mergeCounts_of_rv wclist 0 (fun c w => by rw [hscan]; simp) (by rw [hscan]; rfl)]
      | some count =>
        have hscan : scanf countFormat s =
            (scanf [.percentMs, .space] rest).cons (.int count) := by
          rw [countFormat, scanf, if_neg (by rw [hs]; simp), hs, hint]
          exact congrArg (Scanned.cons (.int count)) (scanf_space .percentMs [.space] rest)
        have hrest := length_scanInt hint
        cases hr : skipSpace rest with
        | nil =>
          have hscan' : scanf countFormat s = ⟨[.int count], some .input, []⟩ := by
            rw [hscan, scanf, if_pos hr]
            rfl
          rw [mergeCounts_of_rv wclist 1 (fun c w => by rw [hscan']; simp) (by rw [hscan']; rfl)]
          show (rest.foldl Reader.feed ⟨wclist, .tab count⟩).finish = _
          rw [foldl_feed_tab, hr]
          rfl
        | cons c u =>
          have hc := isspace_of_skipSpace hr
          have hscan' : scanf countFormat s =
              ⟨[.int count, .str ((c :: u).takeWhile fun b => !isspace b)], none,
                skipSpace ((c :: u).dropWhile fun b => !isspace b)⟩ := by
            rw [hscan, scanf, if_neg (by rw [hr]; simp), hr]
            rfl
          have hshorter : ((c :: u).dropWhile fun b => !isspace b).length < n := by
            have h1 := (List.dropWhile_suffix (l := c :: u) fun b => !isspace b).length_le
            have h2 : (c :: u).length ≤ rest.length := hr ▸ length_skipSpace_le rest
            omega
          show (rest.foldl Reader.feed ⟨wclist, .tab count⟩).finish = _
          rw [finish_tab wclist hr hc, ih _ hshorter _ _ rfl,
            mergeCounts_line (congrArg Scanned.items hscan'), hscan', mergeCounts_skipSpace]

end SystemProgramming.Words
