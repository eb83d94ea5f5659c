import SystemProgramming.Lib.Scan
import SystemProgramming.Words.Stream
import SystemProgramming.Words.WordCount

/-!
# The count stream

`merge_counts` of `fwords.c`, which reads with `"%8d\t%ms\n"` what `fprint_words` writes with
`"%8d\t%s\n"`. The writer pads to 8 characters at least, the reader stops at 8 digits: a count of 9
digits is cut, and its last digits are taken for the word.

* `mergeCounts_fprintWords`: counts of up to 8 digits are added one by one.
* `mergeCounts_long`: the first longer one ends the loop with a complaint.
* `mergeCounts_round_trip`: so a list of words comes back as it was iff its counts have at most 8
  digits.
-/

namespace SystemProgramming.Words

open Lib

/-! ## `merge_counts` -/

/-- `"%8d\t%ms\n"`. -/
def countFormat : List Directive := [.percentD 8, .space, .percentMs, .space]

/-- What a program writes to `stderr`: with `perror`, which adds the text of `errno`, or with
`fprintf`. -/
inductive Diagnostic
  | perror (s : Str)
  | fprintf (s : Str)
  deriving DecidableEq

/-- What `merge_counts` writes when the loop has ended with `rv`. -/
def mergeDiagnostics (rv : Int) (feof : Bool) : List Diagnostic :=
  if rv = eof ∧ feof = false then [.perror (bytes "could not read counts")]
  else if rv ≠ eof then
    [.fprintf (bytes "read ill-formed count (matched " ++ percentD rv ++ bytes ")\n")]
  else []

theorem mergeDiagnostics_of_ne (feof : Bool) {rv : Int} (h : rv ≠ eof) :
    mergeDiagnostics rv feof =
      [.fprintf (bytes "read ill-formed count (matched " ++ percentD rv ++ bytes ")\n")] := by
  rw [mergeDiagnostics, if_neg fun hc => h hc.1, if_pos h]

/-- What `merge_counts` leaves behind: the list, what is still to be read, and its diagnostics. -/
structure Merged where
  wclist : List WordCount
  rest : Stream
  stderr : List Diagnostic
  deriving DecidableEq

/-- `merge_counts`. The stream ends with the end of the file or, if `feof` is false, with a read
error. `fscanf` returns 2 when it has assigned both a count and a word. -/
def mergeCounts (feof : Bool) (wclist : List WordCount) (countStream : Stream) : Merged :=
  match _h : (scanf countFormat countStream).items with
  | [.int count, .str word] =>
    mergeCounts feof (Pintos.addWordWithCount wclist word count)
      (scanf countFormat countStream).rest
  | _ =>
    ⟨wclist, (scanf countFormat countStream).rest,
      mergeDiagnostics (scanf countFormat countStream).rv feof⟩
  termination_by countStream.length
  decreasing_by
    have := length_scanf countFormat countStream
    rw [_h] at this
    exact Nat.lt_of_lt_of_le (Nat.lt_add_of_pos_right (Nat.succ_pos _)) this

variable {feof : Bool}

/-- A round of the loop. -/
theorem mergeCounts_line {s : Stream} {count : Int} {word : Str}
    (h : (scanf countFormat s).items = [.int count, .str word]) (wclist : List WordCount) :
    mergeCounts feof wclist s =
      mergeCounts feof (Pintos.addWordWithCount wclist word count) (scanf countFormat s).rest := by
  rw [mergeCounts]
  split
  next c w h' =>
    rw [h] at h'
    simp only [List.cons.injEq, Item.int.injEq, Item.str.injEq, and_true] at h'
    rw [h'.1, h'.2]
  next h' => exact absurd h (h' count word)

/-- The end of the loop. -/
theorem mergeCounts_stop {s : Stream}
    (h : ∀ count word, (scanf countFormat s).items ≠ [.int count, .str word])
    (wclist : List WordCount) :
    mergeCounts feof wclist s =
      ⟨wclist, (scanf countFormat s).rest, mergeDiagnostics (scanf countFormat s).rv feof⟩ := by
  rw [mergeCounts]
  split
  next c w h' => exact absurd h' (h c w)
  next => rfl

/-- `merge_counts` skips white space first. -/
theorem mergeCounts_skipSpace (wclist : List WordCount) (s : Stream) :
    mergeCounts feof wclist (skipSpace s) = mergeCounts feof wclist s := by
  have hs : scanf countFormat (skipSpace s) = scanf countFormat s := scanf_skipSpace s
  by_cases h : ∃ count word, (scanf countFormat s).items = [.int count, .str word]
  · obtain ⟨count, word, h⟩ := h
    rw [mergeCounts_line h, mergeCounts_line (hs ▸ h), hs]
  · have h : ∀ count word, (scanf countFormat s).items ≠ [.int count, .str word] :=
      fun count word heq => h ⟨count, word, heq⟩
    rw [mergeCounts_stop h, mergeCounts_stop (hs ▸ h), hs]

/-- At the end of the file there is nothing to do. -/
theorem mergeCounts_nil (wclist : List WordCount) : mergeCounts true wclist [] = ⟨wclist, [], []⟩ :=
  mergeCounts_stop (fun _ _ => by simp [countFormat, scanf, skipSpace]) wclist

/-! ## One line -/

/-- An element as `count_words` makes it: a word of `get_word` and how often it occurs. -/
structure Counted (wc : WordCount) : Prop where
  length : 2 ≤ wc.word.length
  lower : ∀ ch ∈ wc.word, islower ch = true
  count : 1 ≤ wc.count

instance (wc : WordCount) : Decidable (Counted wc) :=
  decidable_of_iff (2 ≤ wc.word.length ∧ wc.word.all islower = true ∧ 1 ≤ wc.count)
    ⟨fun ⟨h1, h2, h3⟩ => ⟨h1, List.all_eq_true.mp h2, h3⟩,
      fun ⟨h1, h2, h3⟩ => ⟨h1, List.all_eq_true.mpr h2, h3⟩⟩

theorem Counted.ne_nil {wc : WordCount} (h : Counted wc) : wc.word ≠ [] := by
  rintro heq
  have := h.length
  rw [heq] at this
  exact absurd this (by decide)

/-- The line of an element is white space, the digits of the count, a tab and the word. -/
theorem wordLine_eq {wc : WordCount} (h : Counted wc) :
    ∃ pad, (∀ b ∈ pad, isspace b = true) ∧
      wordLine wc = pad ++ (decimal wc.count.toNat ++ 9 :: (wc.word ++ [10])) := by
  have hneg : ¬ wc.count < 0 := by have := h.count; omega
  have habs : wc.count.natAbs = wc.count.toNat := by have := h.count; omega
  refine ⟨List.replicate (8 - (decimal wc.count.toNat).length) 32, ?_, ?_⟩
  · intro b hb
    rw [List.eq_of_mem_replicate hb]
    rfl
  · unfold wordLine percentDWidth percentD
    rw [if_neg hneg, habs, List.append_assoc, List.append_assoc, List.cons_append]

theorem noDigit_tab (s : Str) : NoDigit (9 :: s) := by
  intro b hb
  obtain rfl := Option.some.inj hb
  rfl

/-- What `%8d` makes of a line. -/
theorem scanf_wordLine {wc : WordCount} (h : Counted wc) (s : Str) :
    scanf countFormat (wordLine wc ++ s) =
      (scanf [.percentMs, .space]
        ((decimal wc.count.toNat).drop 8 ++ 9 :: (wc.word ++ 10 :: s))).cons
          (.int (digitsValue ((decimal wc.count.toNat).take 8))) := by
  obtain ⟨pad, hpad, hline⟩ := wordLine_eq h
  have happ : wordLine wc ++ s =
      pad ++ (decimal wc.count.toNat ++ 9 :: (wc.word ++ 10 :: s)) := by
    rw [hline]
    simp
  rw [happ, countFormat, scanf_percentD hpad (fun b hb => isdigit_of_mem_decimal hb)
    (noDigit_tab _) (by decide) (decimal_ne_nil _), scanf_space]

/-- A count of at most 8 digits is read back with its word. -/
theorem scanf_short {wc : WordCount} (h : Counted wc) (hshort : wc.count < 10 ^ 8) (s : Str) :
    scanf countFormat (wordLine wc ++ s) =
      ⟨[.int wc.count, .str wc.word], none, skipSpace s⟩ := by
  have hlen : (decimal wc.count.toNat).length ≤ 8 :=
    (length_decimal_le_iff (by decide)).mpr (by omega)
  have hcount : ((wc.count.toNat : Nat) : Int) = wc.count := by have := h.count; omega
  rw [scanf_wordLine h, List.drop_of_length_le hlen, List.take_of_length_le hlen,
    digitsValue_decimal, List.nil_append, hcount, scanf_cons_space (by decide),
    scanf_percentMs (fun b hb => isspace_of_islower (h.lower b hb)) h.ne_nil (by decide), scanf,
    scanf, skipSpace_cons_space (by decide)]
  rfl

/-- A longer one is cut after 8 digits. The other digits are taken for the word. -/
theorem scanf_long {wc : WordCount} (h : Counted wc) (hlong : 10 ^ 8 ≤ wc.count) (s : Str) :
    scanf countFormat (wordLine wc ++ s) =
      ⟨[.int (digitsValue ((decimal wc.count.toNat).take 8)),
        .str ((decimal wc.count.toNat).drop 8)], none, wc.word ++ 10 :: s⟩ := by
  have hlen : 8 < (decimal wc.count.toNat).length := by
    rw [← Nat.not_le, length_decimal_le_iff (by decide)]
    omega
  have hdrop : (decimal wc.count.toNat).drop 8 ≠ [] := by
    rw [Ne, List.drop_eq_nil_iff]
    omega
  have hskip : skipSpace (9 :: (wc.word ++ 10 :: s)) = wc.word ++ 10 :: s := by
    rw [skipSpace_cons_space (by decide)]
    obtain ⟨b, w, hw⟩ := List.exists_cons_of_ne_nil h.ne_nil
    rw [hw]
    exact skipSpace_cons (isspace_of_islower (h.lower b (hw ▸ List.mem_cons_self))) _
  rw [scanf_wordLine h, scanf_percentMs
    (fun b hb => isspace_of_isdigit (isdigit_of_mem_decimal (List.mem_of_mem_drop hb))) hdrop
    (by decide), scanf, scanf, hskip]
  rfl

/-- A word is no count. -/
theorem scanf_word {wc : WordCount} (h : Counted wc) (s : Str) :
    scanf countFormat (wc.word ++ s) = ⟨[], some .matching, wc.word ++ s⟩ := by
  obtain ⟨b, w, hw⟩ := List.exists_cons_of_ne_nil h.ne_nil
  have hb := islower_iff.mp (h.lower b (hw ▸ List.mem_cons_self))
  have hsign : b ≠ 43 ∧ b ≠ 45 := by
    constructor
    · rintro rfl
      exact absurd hb (by decide)
    · rintro rfl
      exact absurd hb (by decide)
  have hdigit : isdigit b = false := by
    rw [← Bool.not_eq_true, isdigit_iff]
    omega
  rw [hw]
  exact scanf_percentD_matching (isspace_of_islower (islower_iff.mpr hb)) hsign hdigit 8 _

/-! ## The whole text -/

/-- The elements of one list added to another, in order. -/
def addCounts (wclist : List WordCount) (counts : List WordCount) : List WordCount :=
  counts.foldl (fun wclist wc => Pintos.addWordWithCount wclist wc.word wc.count) wclist

theorem fprintWords_cons (wc : WordCount) (counts : List WordCount) (s : Stream) :
    fprintWords (wc :: counts) ++ s = wordLine wc ++ (fprintWords counts ++ s) := by
  rw [fprintWords, List.flatMap_cons, List.append_assoc]
  rfl

/-- A round on a line with a count of at most 8 digits. -/
theorem mergeCounts_short (feof : Bool) {wc : WordCount} (h : Counted wc)
    (hshort : wc.count < 10 ^ 8) (wclist : List WordCount) (s : Stream) :
    mergeCounts feof wclist (wordLine wc ++ s) =
      mergeCounts feof (Pintos.addWordWithCount wclist wc.word wc.count) s := by
  have hscan := scanf_short h hshort s
  rw [mergeCounts_line (congrArg Scanned.items hscan), hscan, mergeCounts_skipSpace]

/-- The last two rounds on a line with a longer count: the second one takes the word for a count. -/
theorem mergeCounts_cut (feof : Bool) {wc : WordCount} (h : Counted wc)
    (hlong : 10 ^ 8 ≤ wc.count) (wclist : List WordCount) (s : Stream) :
    mergeCounts feof wclist (wordLine wc ++ s) =
      ⟨Pintos.addWordWithCount wclist ((decimal wc.count.toNat).drop 8)
          (digitsValue ((decimal wc.count.toNat).take 8)),
        wc.word ++ 10 :: s, mergeDiagnostics 0 feof⟩ := by
  have hscan := scanf_long h hlong s
  have hword := scanf_word h (10 :: s)
  rw [mergeCounts_line (congrArg Scanned.items hscan), hscan,
    mergeCounts_stop (fun c w => by rw [hword]; simp), hword]
  rfl

/-- **Counts of at most 8 digits** are added one by one. -/
theorem mergeCounts_fprintWords (feof : Bool) {counts : List WordCount}
    (h : ∀ wc ∈ counts, Counted wc) (hshort : ∀ wc ∈ counts, wc.count < 10 ^ 8)
    (wclist : List WordCount) (s : Stream) :
    mergeCounts feof wclist (fprintWords counts ++ s) =
      mergeCounts feof (addCounts wclist counts) s := by
  induction counts generalizing wclist with
  | nil => rfl
  | cons wc counts ih =>
    obtain ⟨hwc, hcounts⟩ := List.forall_mem_cons.mp h
    obtain ⟨hs, hshorts⟩ := List.forall_mem_cons.mp hshort
    rw [fprintWords_cons, mergeCounts_short feof hwc hs, ih hcounts hshorts]
    rfl

/-- **The first longer count** ends the loop with a complaint. -/
theorem mergeCounts_long (feof : Bool) {counts : List WordCount} (h : ∀ wc ∈ counts, Counted wc)
    (hlong : ∃ wc ∈ counts, 10 ^ 8 ≤ wc.count) (wclist : List WordCount) (s : Stream) :
    (mergeCounts feof wclist (fprintWords counts ++ s)).stderr =
      [.fprintf (bytes "read ill-formed count (matched 0)\n")] := by
  induction counts generalizing wclist with
  | nil =>
    obtain ⟨wc, hwc, -⟩ := hlong
    exact absurd hwc List.not_mem_nil
  | cons wc counts ih =>
    obtain ⟨hwc, hcounts⟩ := List.forall_mem_cons.mp h
    rw [fprintWords_cons]
    by_cases hc : wc.count < 10 ^ 8
    · rw [mergeCounts_short feof hwc hc]
      refine ih hcounts ?_ _
      obtain ⟨wc', hwc', hl⟩ := hlong
      rcases List.mem_cons.mp hwc' with rfl | hwc'
      · omega
      · exact ⟨wc', hwc', hl⟩
    · have hrv : (0 : Int) ≠ eof := by decide
      rw [mergeCounts_cut feof hwc (by omega)]
      exact mergeDiagnostics_of_ne feof hrv

/-- Adding different words to a list that has none of them appends them. -/
theorem addCounts_append (wclist counts : List WordCount)
    (hnd : ((wclist ++ counts).map WordCount.word).Nodup) :
    addCounts wclist counts = wclist ++ counts := by
  induction counts generalizing wclist with
  | nil => exact (List.append_nil wclist).symm
  | cons wc counts ih =>
    have hfind : Pintos.findWord wclist wc.word = none := by
      refine List.findIdx?_eq_none_iff.mpr fun wc' hwc' => ?_
      rw [beq_eq_false_iff_ne, Ne, strcmp_eq_zero_iff]
      intro heq
      rw [List.map_append, List.map_cons, List.nodup_middle, List.nodup_cons] at hnd
      exact hnd.1 (heq ▸ List.mem_append_left _ (List.mem_map_of_mem hwc'))
    have hadd : Pintos.addWordWithCount wclist wc.word wc.count = wclist ++ [wc] := by
      unfold Pintos.addWordWithCount
      rw [hfind]
    rw [addCounts, List.foldl_cons, hadd]
    have := ih (wclist ++ [wc]) (by rwa [List.append_assoc])
    rwa [List.append_assoc] at this

/-- **The round trip.** What `fprint_words` writes for a list of different words is read back by
`merge_counts` into the same list, to the end and without complaint, iff every count has at most 8
digits. -/
theorem mergeCounts_round_trip {wclist : List WordCount}
    (hnd : (wclist.map WordCount.word).Nodup) (h : ∀ wc ∈ wclist, Counted wc) :
    mergeCounts true [] (fprintWords wclist) = ⟨wclist, [], []⟩ ↔
      ∀ wc ∈ wclist, wc.count < 10 ^ 8 := by
  constructor
  · intro heq wc hwc
    by_contra hlong
    have := mergeCounts_long true h ⟨wc, hwc, by omega⟩ [] []
    rw [List.append_nil, heq] at this
    exact absurd this (by simp)
  · intro hshort
    have := mergeCounts_fprintWords true h hshort [] []
    rw [List.append_nil] at this
    rw [this, addCounts_append [] wclist hnd, mergeCounts_nil]
    rfl

/-- Two words with counts of one and of eight digits. -/
theorem mergeCounts_round_trip_two :
    mergeCounts true [] (fprintWords [⟨bytes "the", 99999999⟩, ⟨bytes "of", 7⟩]) =
      ⟨[⟨bytes "the", 99999999⟩, ⟨bytes "of", 7⟩], [], []⟩ :=
  (mergeCounts_round_trip (by decide) (by decide)).mpr (by decide)

/-- The count 123456789 of one word comes back as 12345678 of the word `9`, and the word itself is
left in the stream. -/
theorem mergeCounts_long_count :
    ¬ (∀ wclist : List WordCount, (wclist.map WordCount.word).Nodup →
      (∀ wc ∈ wclist, Counted wc) →
        mergeCounts true [] (fprintWords wclist) = ⟨wclist, [], []⟩) ∧
    mergeCounts true [] (fprintWords [⟨bytes "ab", 123456789⟩]) =
      ⟨[⟨bytes "9", 12345678⟩], bytes "ab\n",
        [.fprintf (bytes "read ill-formed count (matched 0)\n")]⟩ := by
  have hrun : mergeCounts true [] (fprintWords [⟨bytes "ab", 123456789⟩]) =
      ⟨[⟨bytes "9", 12345678⟩], bytes "ab\n",
        [.fprintf (bytes "read ill-formed count (matched 0)\n")]⟩ := by
    have h1 : scanf countFormat (fprintWords [⟨bytes "ab", 123456789⟩]) =
        ⟨[.int 12345678, .str (bytes "9")], none, bytes "ab\n"⟩ := by decide
    have h2 : scanf countFormat (bytes "ab\n") = ⟨[], some .matching, bytes "ab\n"⟩ := by decide
    rw [mergeCounts_line (congrArg Scanned.items h1), h1,
      mergeCounts_stop (fun c w => by rw [h2]; simp), h2]
    decide
  refine ⟨?_, hrun⟩
  intro hclaim
  have := hclaim [⟨bytes "ab", 123456789⟩] (by decide) (by decide)
  rw [hrun] at this
  exact absurd this (by decide)

end SystemProgramming.Words
