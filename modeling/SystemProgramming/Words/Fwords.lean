import SystemProgramming.Words.Counts
import SystemProgramming.Words.Main

/-!
# `fwords`

`main` of `fwords.c`: a child process for every file counts its words from an empty list and prints
them to a pipe, and the parent merges what comes out of the pipes, in the order of the files.
`fork`, `pipe` and `fdopen` are taken to succeed, and every pipe to deliver all that its child has
written, followed by the end of the file.

* `mergeChildren_tally`: merging adds up the counts of the files.
* `fwords_words_same`: `fwords` prints what `words` prints, in whatever order the files come, as
  long as no count of a file has more than 8 digits.
-/

namespace SystemProgramming.Words

open Lib

/-- A child that has ended: what it has written to its pipe and to `stderr`, and its status. -/
structure Child where
  pipe : Str
  stderr : List Diagnostic
  status : Nat
  deriving DecidableEq

/-- The child's part of `main`, with the list it has inherited from the parent. -/
def childMain (wclist : List WordCount) : Option Stream → Option Child
  | none => some ⟨[], [.perror (bytes "fopen argv")], 1⟩
  | some f =>
    (countWords Pintos.addWord wclist f).map fun r => ⟨fprintWords r.1, [], 2⟩

/-- The merging loop of the parent: the list and what has been written to `stderr`. -/
def mergeChildren (wclist : List WordCount) : List Child → List WordCount × List Diagnostic
  | [] => (wclist, [])
  | child :: children =>
    let merged := mergeCounts true wclist child.pipe
    let r := mergeChildren merged.wclist children
    (r.1, merged.stderr ++ r.2)

/-- A run of `fwords`: how the children and the parent end, and the parent's diagnostics. -/
structure FwordsRun where
  children : List Child
  exit : Exit
  stderr : List Diagnostic
  deriving DecidableEq

/-- `main` of `fwords.c`. -/
def fwordsMain (argv : List (Option Stream)) (stdin : Stream) : Option FwordsRun :=
  if argv = [] then
    (countWords Pintos.addWord [] stdin).bind fun r =>
      (output lwords r.1).map fun text => ⟨[], ⟨0, text⟩, []⟩
  else
    (argv.mapM (childMain [])).bind fun children =>
      let r := mergeChildren [] children
      (output lwords r.1).map fun text => ⟨children, ⟨0, text⟩, r.2⟩

/-! ## The children -/

/-- The list of a child. -/
def childCounts (f : Stream) : List WordCount := (wordsOf f).foldl Pintos.addWord []

theorem childCounts_tally (f : Stream) : Tallies (childCounts f) (occ (wordsOf f)) := by
  have := foldl_occ Pintos.addWord_tally (wordsOf f) isTally_nil
  rwa [zero_add] at this

theorem childMain_readable (f : Stream) :
    childMain [] (some f) = some ⟨fprintWords (childCounts f), [], 2⟩ := by
  rw [childMain, countWords_eq]
  rfl

theorem mapM_childMain (files : List Stream) :
    (files.map some).mapM (childMain []) =
      some (files.map fun f => ⟨fprintWords (childCounts f), [], 2⟩) := by
  induction files with
  | nil => rfl
  | cons f files ih =>
    rw [List.map_cons, List.mapM_cons, childMain_readable, ih]
    rfl

/-- The elements of a child's list are words with the number of their occurrences. -/
theorem mem_childCounts {f : Stream} {wc : WordCount} (h : wc ∈ childCounts f) :
    Counted wc ∧ wc.count = (wordsOf f).count wc.word := by
  obtain ⟨hpos, hcount⟩ := (childCounts_tally f).entry wc h
  have hmem : wc.word ∈ wordsOf f := by
    rw [← List.count_pos_iff]
    unfold occ at hcount
    omega
  obtain ⟨hlen, hlower⟩ := of_mem_wordsOf hmem
  exact ⟨⟨hlen, hlower, hpos⟩, hcount.symm⟩

/-! ## The parent -/

/-- Adding the counts of one list to another. -/
theorem addCounts_tally {wclist counts : List WordCount} {f g : Str → ℤ} (h : Tallies counts f)
    (hw : Tallies wclist g) : Tallies (addCounts wclist counts) (g + f) :=
  h.merge (fun l f wc hpos hl => Pintos.addWordWithCount_tally l f wc.word wc.count hpos hl) hw

/-- What the parent merges is what the child has counted. -/
theorem mergeCounts_child {f : Stream} (hshort : ∀ word, (wordsOf f).count word < 10 ^ 8)
    (wclist : List WordCount) :
    mergeCounts true wclist (fprintWords (childCounts f)) =
      ⟨addCounts wclist (childCounts f), [], []⟩ := by
  have hcounts : ∀ wc ∈ childCounts f, wc.count < 10 ^ 8 := fun wc hwc => by
    rw [(mem_childCounts hwc).2]
    exact_mod_cast hshort wc.word
  have := mergeCounts_fprintWords true (fun wc hwc => (mem_childCounts hwc).1) hcounts
    wclist []
  rwa [List.append_nil, mergeCounts_nil] at this

/-- **The merging loop** adds up the counts of the files and complains about nothing. -/
theorem mergeChildren_tally {files : List Stream}
    (hshort : ∀ f ∈ files, ∀ word, (wordsOf f).count word < 10 ^ 8) {wclist : List WordCount}
    {g : Str → ℤ} (hw : Tallies wclist g) :
    ∃ l, mergeChildren wclist (files.map fun f => ⟨fprintWords (childCounts f), [], 2⟩) = (l, []) ∧
      Tallies l (g + occ (files.flatMap wordsOf)) := by
  induction files generalizing wclist g with
  | nil => exact ⟨wclist, rfl, by simpa using hw⟩
  | cons f files ih =>
    obtain ⟨l, hl, ht⟩ := ih (fun f' hf' => hshort f' (List.mem_cons_of_mem f hf'))
      (addCounts_tally (childCounts_tally f) hw)
    refine ⟨l, ?_, ?_⟩
    · rw [List.map_cons, mergeChildren]
      simp only [mergeCounts_child (hshort f List.mem_cons_self), hl, List.append_nil]
    · rw [List.flatMap_cons, occ_append, ← add_assoc]
      exact ht

/-- **`fwords` prints the report of its files.** -/
theorem fwordsMain_isReport {files : List Stream} (hne : files ≠ [])
    (hshort : ∀ f ∈ files, ∀ word, (wordsOf f).count word < 10 ^ 8) (stdin : Stream) :
    ∃ run entries, fwordsMain (files.map some) stdin = some run ∧ run.stderr = [] ∧
      run.exit = ⟨0, fprintWords entries⟩ ∧ IsReport (occ (files.flatMap wordsOf)) entries := by
  obtain ⟨l, hl, ht⟩ := mergeChildren_tally hshort isTally_nil
  rw [zero_add] at ht
  obtain ⟨entries, ho, hr⟩ := output_isReport lwords_lawful ht
  refine ⟨⟨files.map fun f => ⟨fprintWords (childCounts f), [], 2⟩, ⟨0, fprintWords entries⟩, []⟩,
    entries, ?_, rfl, rfl, hr⟩
  unfold fwordsMain
  rw [if_neg (by simpa using hne), mapM_childMain, Option.bind_some, hl]
  simp only [ho]
  rfl

/-- Without arguments `fwords` counts `stdin` itself, and prints what `words` prints. -/
theorem fwordsMain_stdin (stdin : Stream) :
    (fwordsMain [] stdin).map FwordsRun.exit = wordsMain words [] stdin := by
  have hf : fwordsMain [] stdin =
      (output lwords (childCounts stdin)).map fun text => ⟨[], ⟨0, text⟩, []⟩ := by
    rw [fwordsMain, if_pos rfl, countWords_eq]
    rfl
  have hw : wordsOutput lwords [stdin] = output lwords (childCounts stdin) := by
    rw [wordsOutput, countStreams, countWords_eq]
    rfl
  rw [wordsMain_stdin, wordsOutput_same words_lawful lwords_lawful, hf, hw, Option.map_map]
  rfl

/-- **`fwords` computes what `words` computes**, without complaint, and so it does with its files in
another order. -/
theorem fwords_words_same {files files' : List Stream} (hne : files ≠ [])
    (hshort : ∀ f ∈ files, ∀ word, (wordsOf f).count word < 10 ^ 8) (hp : files'.Perm files)
    (stdin : Stream) :
    ∃ run run', fwordsMain (files.map some) stdin = some run ∧
      fwordsMain (files'.map some) stdin = some run' ∧
      wordsMain words (files.map some) stdin = some run.exit ∧
      run'.exit = run.exit ∧ run.stderr = [] ∧ run'.stderr = [] := by
  obtain ⟨run, entries, hrun, herr, hexit, hr⟩ := fwordsMain_isReport hne hshort stdin
  have hne' : files' ≠ [] := fun h => hne (h ▸ hp).symm.eq_nil
  obtain ⟨run', entries', hrun', herr', hexit', hr'⟩ :=
    fwordsMain_isReport hne' (fun f hf => hshort f (hp.mem_iff.mp hf)) stdin
  obtain ⟨entries'', ho, hr''⟩ := wordsOutput_isReport words_lawful files
  rw [occ_perm (hp.flatMap_right wordsOf)] at hr'
  obtain rfl := hr.unique hr'
  obtain rfl := hr.unique hr''
  refine ⟨run, run', hrun, hrun', ?_, hexit'.trans hexit.symm, herr, herr'⟩
  rw [wordsMain_readable _ hne, ho, hexit]
  rfl

/-- Two files, in both orders. -/
theorem fwords_words_same_two :
    ∃ run run', fwordsMain [some (bytes "to be or"), some (bytes "not to be")] [] = some run ∧
      fwordsMain [some (bytes "not to be"), some (bytes "to be or")] [] = some run' ∧
      wordsMain words [some (bytes "to be or"), some (bytes "not to be")] [] = some run.exit ∧
      run'.exit = run.exit ∧ run.stderr = [] ∧ run'.stderr = [] := by
  have hlen : ∀ f ∈ [bytes "to be or", bytes "not to be"], (wordsOf f).length < 10 ^ 8 := by decide
  exact fwords_words_same (by decide)
    (fun f hf word => Nat.lt_of_le_of_lt List.count_le_length (hlen f hf)) (.swap _ _ []) []

end SystemProgramming.Words
