import SystemProgramming.Words.Stream
import SystemProgramming.Words.WordCount

/-!
# `words` and `lwords`

`main` of `words.c`, which is compiled with `word_count.c` (`words`) and with `word_count_l.c`
(`lwords`). A file on the command line is its contents, or `none` if `fopen` fails on it.

`IsReport f entries` says what the output is about: the entries tally `f` and are in the order of
`less_count`. There is one such list of entries for `f` at most.

* `wordsOutput_isReport`: an implementation that adds and sorts prints the report of the words of
  its input.
* `words_lwords_same`: so the two programs print the same text.
-/

namespace SystemProgramming.Words

open Lib

/-- What `words.c` uses of a word-count list. -/
structure WordCountImpl where
  addWord : List WordCount → Str → List WordCount
  wordcountSort : (WordCount → WordCount → Bool) → List WordCount → Option (List WordCount)

/-- The implementation of `words`. -/
def words : WordCountImpl := ⟨Linked.addWord, Linked.wordcountSort⟩

/-- The implementation of `lwords`. -/
def lwords : WordCountImpl := ⟨Pintos.addWord, Pintos.wordcountSort⟩

/-- How a program ends: its exit status and what it has written to `stdout`. -/
structure Exit where
  status : Nat
  stdout : Str
  deriving DecidableEq

variable (impl : WordCountImpl)

/-- `count_words` on one stream after the other. -/
def countStreams (wclist : List WordCount) : List Stream → Option (List WordCount)
  | [] => some wclist
  | infile :: files =>
    (countWords impl.addWord wclist infile).bind fun r => countStreams r.1 files

/-- The loop over `argv`: the list, or the exit status if a file cannot be opened. -/
def countFiles (wclist : List WordCount) :
    List (Option Stream) → Option (Except Nat (List WordCount))
  | [] => some (.ok wclist)
  | none :: _ => some (.error 1)
  | some infile :: files =>
    (countWords impl.addWord wclist infile).bind fun r => countFiles r.1 files

/-- The end of `main`: sort with `less_count` and print. -/
def output (wclist : List WordCount) : Option Str :=
  (impl.wordcountSort lessCount wclist).map fprintWords

/-- `main` of `words.c`. -/
def wordsMain (argv : List (Option Stream)) (stdin : Stream) : Option Exit :=
  (if argv = [] then (countStreams impl [] [stdin]).map .ok else countFiles impl [] argv).bind fun
    | .ok wclist => (output impl wclist).map fun text => ⟨0, text⟩
    | .error status => some ⟨status, []⟩

/-- What the program prints for the given input streams. -/
def wordsOutput (streams : List Stream) : Option Str :=
  (countStreams impl [] streams).bind (output impl)

theorem countFiles_readable (wclist : List WordCount) (files : List Stream) :
    countFiles impl wclist (files.map some) = (countStreams impl wclist files).map .ok := by
  induction files generalizing wclist with
  | nil => rfl
  | cons infile files ih =>
    rw [List.map_cons, countFiles, countStreams, Option.map_bind]
    congr 1
    funext r
    exact ih r.1

/-- On readable files `main` prints the output for their contents. -/
theorem wordsMain_readable {files : List Stream} (hne : files ≠ []) (stdin : Stream) :
    wordsMain impl (files.map some) stdin = (wordsOutput impl files).map fun text => ⟨0, text⟩ := by
  unfold wordsMain wordsOutput
  rw [if_neg (by simpa using hne), countFiles_readable]
  cases countStreams impl [] files <;> rfl

/-- Without arguments `main` prints the output for `stdin`. -/
theorem wordsMain_stdin (stdin : Stream) :
    wordsMain impl [] stdin = (wordsOutput impl [stdin]).map fun text => ⟨0, text⟩ := by
  unfold wordsMain wordsOutput
  rw [if_pos rfl]
  cases countStreams impl [] [stdin] <;> rfl

/-! ## Reports -/

/-- **The report of `f`**: its tally in the order of `less_count`. -/
structure IsReport (f : Str → ℤ) (entries : List WordCount) : Prop where
  tally : Tallies entries f
  ordered : Ordered lessCount entries

theorem IsReport.unique {f : Str → ℤ} {m m' : List WordCount} (h : IsReport f m)
    (h' : IsReport f m') : m = m' :=
  sorted_tally_unique h.tally h'.tally (.refl m) (.refl m') h.ordered h'.ordered

/-- The entries of a report are strictly ascending. -/
theorem IsReport.ascending {f : Str → ℤ} {m : List WordCount} (h : IsReport f m) :
    m.Pairwise fun wc1 wc2 => lessCount wc1 wc2 = true := by
  have hnd : m.Pairwise fun wc1 wc2 => wc1 ≠ wc2 := List.Nodup.of_map _ h.tally.nodup
  refine (hnd.and h.ordered).imp fun {wc1 wc2} ⟨hne, hle⟩ => ?_
  by_contra hlt
  exact hne (lessCount_total (by simpa using hlt) hle)

/-- An element is in the report of a list of words iff its count is how often its word occurs. -/
theorem IsReport.mem_iff {ws : List Str} {m : List WordCount} (h : IsReport (occ ws) m)
    (wc : WordCount) : wc ∈ m ↔ wc.word ∈ ws ∧ wc.count = ws.count wc.word :=
  mem_iff_of_tallies h.tally wc

/-- What the report says of an implementation: it adds, and it sorts. -/
structure WordCountImpl.Lawful : Prop where
  add : ∀ l f word, Tallies l f → Tallies (impl.addWord l word) (f + Pi.single word 1)
  sort : ∀ l, ∃ l', impl.wordcountSort lessCount l = some l' ∧ l'.Perm l ∧ Ordered lessCount l'

theorem words_lawful : words.Lawful :=
  ⟨Linked.addWord_tally, Linked.wordcountSort_spec lessCount_strictWeak⟩

theorem lwords_lawful : lwords.Lawful :=
  ⟨Pintos.addWord_tally, Pintos.wordcountSort_spec lessCount_strictWeak⟩

variable {impl}

/-- Sorting a tally and printing it prints the report. -/
theorem output_isReport (h : impl.Lawful) {wclist : List WordCount} {f : Str → ℤ}
    (hw : Tallies wclist f) :
    ∃ entries, output impl wclist = some (fprintWords entries) ∧ IsReport f entries := by
  obtain ⟨l', hs, hp, ho⟩ := h.sort wclist
  exact ⟨l', by rw [output, hs]; rfl, hw.of_perm hp.symm, ho⟩

theorem countStreams_tally (h : impl.Lawful) (streams : List Stream) {wclist : List WordCount}
    {f : Str → ℤ} (hw : Tallies wclist f) :
    ∃ l, countStreams impl wclist streams = some l ∧
      Tallies l (f + occ (streams.flatMap wordsOf)) := by
  induction streams generalizing wclist f with
  | nil => exact ⟨wclist, rfl, by simpa using hw⟩
  | cons infile streams ih =>
    obtain ⟨l, hl, ht⟩ := ih (foldl_occ h.add (wordsOf infile) hw)
    refine ⟨l, ?_, ?_⟩
    · rw [countStreams, countWords_eq]
      exact hl
    · rw [List.flatMap_cons, occ_append, ← add_assoc]
      exact ht

/-- **An implementation that adds and sorts prints the report of its input.** -/
theorem wordsOutput_isReport (h : impl.Lawful) (streams : List Stream) :
    ∃ entries, wordsOutput impl streams = some (fprintWords entries) ∧
      IsReport (occ (streams.flatMap wordsOf)) entries := by
  obtain ⟨l, hl, ht⟩ := countStreams_tally h streams isTally_nil
  rw [zero_add] at ht
  obtain ⟨entries, ho, hr⟩ := output_isReport h ht
  exact ⟨entries, by rw [wordsOutput, hl]; exact ho, hr⟩

/-- Any two implementations that add and sort print the same. -/
theorem wordsOutput_same {impl' : WordCountImpl} (h : impl.Lawful) (h' : impl'.Lawful)
    (streams : List Stream) : wordsOutput impl streams = wordsOutput impl' streams := by
  obtain ⟨entries, ho, hr⟩ := wordsOutput_isReport h streams
  obtain ⟨entries', ho', hr'⟩ := wordsOutput_isReport h' streams
  obtain rfl := hr.unique hr'
  rw [ho, ho']

/-- **`words` and `lwords` print the same**: a line for every word of the input with the number of
its occurrences, ascending by count and alphabetically on ties. -/
theorem words_lwords_same (streams : List Stream) :
    ∃ entries, wordsOutput words streams = some (fprintWords entries) ∧
      wordsOutput lwords streams = some (fprintWords entries) ∧
      (fprintWords entries).splitOn 10 =
        entries.map (fun wc => percentDWidth 8 wc.count ++ 9 :: wc.word) ++ [[]] ∧
      (entries.map WordCount.word).Nodup ∧
      entries.Pairwise (fun wc1 wc2 => lessCount wc1 wc2 = true) ∧
      ∀ wc, wc ∈ entries ↔ wc.word ∈ streams.flatMap wordsOf ∧
        wc.count = (streams.flatMap wordsOf).count wc.word := by
  obtain ⟨entries, ho, hr⟩ := wordsOutput_isReport words_lawful streams
  obtain ⟨entries', ho', hr'⟩ := wordsOutput_isReport lwords_lawful streams
  obtain rfl := hr.unique hr'
  refine ⟨entries, ho, ho', splitOn_fprintWords fun wc hwc hnewline => ?_, hr.tally.nodup,
    hr.ascending, hr.mem_iff⟩
  obtain ⟨s, -, hword⟩ := List.mem_flatMap.mp ((hr.mem_iff wc).mp hwc).1
  exact absurd ((of_mem_wordsOf hword).2 10 hnewline) (by decide)

end SystemProgramming.Words
