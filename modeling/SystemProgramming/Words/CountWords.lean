import SystemProgramming.Words.Stream
import SystemProgramming.Words.WordCount

/-!
# `count_words` on any list

What `count_words` makes of a list that is there before. Its words are distinct, but its counts may
be anything: `add_word_with_count` takes any `int`.

* `Added.counts`, `Added.mem_iff`: adding to the count of a word, with nothing known about counts.
* `countWords_counts`: the counts of the stream are added to those of the list.
-/

namespace SystemProgramming.Words

open Lib

/-- The list has distinct words, with these counts. -/
abbrev Counts (wclist : List WordCount) (f : Str → ℤ) : Prop :=
  IsCount WordCount.word WordCount.count wclist f

/-- The count of a word in a list, zero if it is absent. -/
def countIn (wclist : List WordCount) (word : Str) : ℤ :=
  countOf WordCount.word WordCount.count wclist word

section Add

variable {word : Str} {n : Int} {l l' : List WordCount}

theorem Added.counts (ha : Added word n l l') {f : Str → ℤ} (h : Counts l f) :
    Counts l' (f + Pi.single word n) := by
  cases ha with
  | old pre e post hword =>
    subst hword
    exact h.add_old rfl rfl
  | new hword hp => exact (h.add_new (e := ⟨word, n⟩) hword).of_perm hp.symm

theorem Added.mem_iff (ha : Added word n l l') (w : Str) :
    w ∈ l'.map WordCount.word ↔ w ∈ l.map WordCount.word ∨ w = word := by
  cases ha with
  | old pre e post hword =>
    subst hword
    simp only [List.map_append, List.map_cons, List.mem_append, List.mem_cons]
    tauto
  | new hword hp =>
    rw [(hp.map WordCount.word).mem_iff, List.map_cons, List.mem_cons, or_comm]

end Add

variable {addWord : List WordCount → Str → List WordCount}

/-- Adding words one by one adds their numbers to the counts. -/
theorem foldl_counts (h : ∀ l word, Added word 1 l (addWord l word)) {l : List WordCount}
    (hnd : (l.map WordCount.word).Nodup) (words : List Str) :
    ((words.foldl addWord l).map WordCount.word).Nodup ∧
      ∀ w, countIn (words.foldl addWord l) w = countIn l w + words.count w := by
  have hcount : Counts l (countIn l) := isCount_iff.mpr ⟨hnd, rfl⟩
  obtain ⟨hnd', hf⟩ := isCount_iff.mp (foldl_occ (fun l f word => (h l word).counts) words hcount)
  exact ⟨hnd', fun w => (congrFun hf w).symm⟩

theorem foldl_mem (h : ∀ l word, Added word 1 l (addWord l word)) (words : List Str) :
    ∀ (l : List WordCount) (w : Str),
    w ∈ (words.foldl addWord l).map WordCount.word ↔ w ∈ l.map WordCount.word ∨ w ∈ words := by
  induction words with
  | nil => simp
  | cons word words ih =>
    intro l w
    rw [List.foldl_cons, ih, (h l word).mem_iff, List.mem_cons]
    tauto

/-- **`count_words` adds the words of the stream to any list with distinct words.** It stays inside
its buffer and reads the whole stream. The words of the list are those that it had and those of
the stream, so the absent ones are those with count zero if the counts were positive. -/
theorem countWords_counts (wclist : List WordCount) (infile : Stream)
    (hnd : (wclist.map WordCount.word).Nodup) :
    ∀ addWord ∈ [Linked.addWord, Pintos.addWord], ∃ l,
      countWords addWord wclist infile = some (l, []) ∧ (l.map WordCount.word).Nodup ∧
      (∀ w, countIn l w = countIn wclist w + (wordsOf infile).count w) ∧
      (∀ w, w ∈ l.map WordCount.word ↔ w ∈ wclist.map WordCount.word ∨ w ∈ wordsOf infile) ∧
      ((∀ wc ∈ wclist, 0 < wc.count) →
        ∀ w, w ∉ l.map WordCount.word ↔ countIn wclist w + (wordsOf infile).count w = 0) := by
  intro addWord hadd
  have h : ∀ l word, Added word 1 l (addWord l word) := by
    rcases List.mem_pair.mp hadd with rfl | rfl
    · exact Linked.addWord_added
    · exact fun l word => Pintos.addWordWithCount_added l word 1
  obtain ⟨hnd', hcounts⟩ := foldl_counts h hnd (wordsOf infile)
  have hmem := foldl_mem h (wordsOf infile) wclist
  refine ⟨_, countWords_eq addWord wclist infile, hnd', hcounts, hmem, fun hpos w => ?_⟩
  rw [hmem, not_or, ← List.count_eq_zero (l := wordsOf infile)]
  by_cases hw : w ∈ wclist.map WordCount.word
  · obtain ⟨wc, hwc, rfl⟩ := List.mem_map.mp hw
    have hpos := hpos wc hwc
    have hin : countIn wclist wc.word = wc.count := countOf_of_mem hnd hwc
    exact iff_of_false (fun hc => hc.1 hw) (by omega)
  · have hin : countIn wclist w = 0 := countOf_of_not_mem hw
    rw [hin]
    simp [hw]

/-- The stream `"ab c\nAB"` and a list that has `ab` once. -/
theorem countWords_counts_ab :
    ([(⟨bytes "ab", 1⟩ : WordCount)].map WordCount.word).Nodup ∧ ∃ l,
      countWords Pintos.addWord [⟨bytes "ab", 1⟩] (bytes "ab c\nAB") = some (l, []) ∧
      (l.map WordCount.word).Nodup ∧
      (∀ w, countIn l w =
        countIn [⟨bytes "ab", 1⟩] w + (wordsOf (bytes "ab c\nAB")).count w) ∧
      (∀ w, w ∈ l.map WordCount.word ↔
        w ∈ [(⟨bytes "ab", 1⟩ : WordCount)].map WordCount.word ∨
          w ∈ wordsOf (bytes "ab c\nAB")) ∧
      ((∀ wc ∈ [(⟨bytes "ab", 1⟩ : WordCount)], 0 < wc.count) → ∀ w,
        w ∉ l.map WordCount.word ↔
          countIn [⟨bytes "ab", 1⟩] w + (wordsOf (bytes "ab c\nAB")).count w = 0) :=
  ⟨List.nodup_singleton _, countWords_counts [⟨bytes "ab", 1⟩] (bytes "ab c\nAB")
    (List.nodup_singleton _) Pintos.addWord (List.mem_cons_of_mem _ List.mem_cons_self)⟩

/-- A word that is in the list with count zero stays there, though it has no occurrence. -/
theorem countWords_keeps_zero :
    ¬ (∀ (wclist : List WordCount) (infile : Stream), (wclist.map WordCount.word).Nodup →
      ∃ l, countWords Pintos.addWord wclist infile = some (l, []) ∧
        (l.map WordCount.word).Nodup ∧
        ∀ w, countIn l w = countIn wclist w + (wordsOf infile).count w ∧
          (countIn wclist w + (wordsOf infile).count w = 0 → w ∉ l.map WordCount.word)) := by
  intro hclaim
  obtain ⟨l, hl, -, hw⟩ := hclaim [⟨bytes "ab", 0⟩] [] (List.nodup_singleton _)
  rw [countWords_eq] at hl
  obtain ⟨rfl, -⟩ := Prod.mk.inj (Option.some.inj hl)
  exact (hw (bytes "ab")).2 (by decide) (by decide)

end SystemProgramming.Words
