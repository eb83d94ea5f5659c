import Mathlib.Data.List.Lex
import SystemProgramming.Lib.Bytes
import SystemProgramming.Lib.Tally
import SystemProgramming.Words.ListSort

/-!
# Word counts

The three implementations of a word-count list, on the sequence of its elements:
`word_count.c` (`Linked`: a singly linked list, insertion at the head, insertion sort),
`word_count_l.c` (`Pintos`: `list.c`, insertion at the end, merge sort) and `word_count_p.c`
(`Locked`: the same under a mutex). A pointer into the list is the position of its element. Counts
are taken to fit an `int`.

* `Linked.addWord_tally`, `Pintos.addWordWithCount_tally`, `Locked.addWord_tally`: every way of
  adding a word adds to its count in the tally.
* `Linked.wordcountSort_spec`, `Pintos.wordcountSort_spec`: both sorts permute into order.
* `lessCount_strictWeak`, `lessCount_total`: `less_count` is a strict order, total on different
  elements.
* `sorted_tally_unique`: so the sorted list depends on the counts only.
-/

namespace SystemProgramming.Words

open Lib

/-- `word_count_t`, less the links. -/
structure WordCount where
  word : Str
  count : Int
  deriving DecidableEq

/-- `less_count`. -/
def lessCount (wc1 wc2 : WordCount) : Bool :=
  wc1.count < wc2.count || (wc1.count == wc2.count && strcmp wc1.word wc2.word < 0)

/-- The line of one element: `"%8d\t%s\n"`. -/
def wordLine (wc : WordCount) : Str := percentDWidth 8 wc.count ++ 9 :: wc.word ++ [10]

/-- `fprint_words`: what is written. -/
def fprintWords (wclist : List WordCount) : Str := wclist.flatMap wordLine

/-- **The lines of the text** are the lines of the elements, each with its newline. -/
theorem splitOn_fprintWords {wclist : List WordCount} (h : ∀ wc ∈ wclist, 10 ∉ wc.word) :
    (fprintWords wclist).splitOn 10 =
      wclist.map (fun wc => percentDWidth 8 wc.count ++ 9 :: wc.word) ++ [[]] := by
  induction wclist with
  | nil => exact List.splitOn_nil 10
  | cons wc wclist ih =>
    obtain ⟨hwc, hrest⟩ := List.forall_mem_cons.mp h
    have hline : 10 ∉ percentDWidth 8 wc.count ++ 9 :: wc.word := by
      rw [List.mem_append, not_or]
      exact ⟨newline_notMem_percentDWidth 8 wc.count,
        List.not_mem_cons_of_ne_of_not_mem (by decide) hwc⟩
    have htext : fprintWords (wc :: wclist) =
        (percentDWidth 8 wc.count ++ 9 :: wc.word) ++ 10 :: fprintWords wclist := by
      simp [fprintWords, wordLine]
    rw [htext, List.splitOn_append_cons_self_of_not_mem hline, ih hrest]
    rfl

/-! ## `word_count.c` -/

namespace Linked

/-- `find_word`. -/
def findWord (wclist : List WordCount) (word : Str) : Option Nat :=
  wclist.findIdx? fun wc => strcmp word wc.word == 0

/-- `add_word`. -/
def addWord (wclist : List WordCount) (word : Str) : List WordCount :=
  match findWord wclist word with
  | some wc => wclist.modify wc fun wc => { wc with count := wc.count + 1 }
  | none => ⟨word, 1⟩ :: wclist

/-- The loop of `wordcount_insert_ordered`, from `cur` on. -/
def insertAfter (less : WordCount → WordCount → Bool) (elem : WordCount) :
    List WordCount → List WordCount
  | [] => [elem]
  | cur :: rest => if less cur elem then cur :: insertAfter less elem rest else elem :: cur :: rest

/-- `wordcount_insert_ordered`. -/
def wordcountInsertOrdered (less : WordCount → WordCount → Bool) (wclist : List WordCount)
    (elem : WordCount) : List WordCount :=
  match wclist with
  | [] => [elem]
  | prev :: rest =>
    if less elem prev then elem :: prev :: rest else prev :: insertAfter less elem rest

/-- `wordcount_sort`. -/
def wordcountSort (less : WordCount → WordCount → Bool) (wclist : List WordCount) :
    Option (List WordCount) :=
  some (wclist.foldl (wordcountInsertOrdered less) [])

end Linked

/-! ## `word_count_l.c` -/

namespace Pintos

/-- `find_word`. -/
def findWord (wclist : List WordCount) (word : Str) : Option Nat :=
  wclist.findIdx? fun wc => strcmp wc.word word == 0

/-- `add_word_with_count`. -/
def addWordWithCount (wclist : List WordCount) (word : Str) (count : Int) : List WordCount :=
  match findWord wclist word with
  | some res => wclist.modify res fun res => { res with count := res.count + count }
  | none => wclist ++ [⟨word, count⟩]

/-- `add_word`. -/
def addWord (wclist : List WordCount) (word : Str) : List WordCount :=
  addWordWithCount wclist word 1

/-- `wordcount_sort`. -/
def wordcountSort (less : WordCount → WordCount → Bool) (wclist : List WordCount) :
    Option (List WordCount) :=
  listSort less wclist

end Pintos

/-! ## `word_count_p.c` -/

namespace Locked

/-- `find_word`. -/
def findWord (wclist : List WordCount) (word : Str) : Option Nat :=
  wclist.findIdx? fun wc => strcmp wc.word word == 0

/-- `add_word`, between `pthread_mutex_lock` and `pthread_mutex_unlock`. -/
def addWord (wclist : List WordCount) (word : Str) : List WordCount :=
  match findWord wclist word with
  | some res => wclist.modify res fun res => { res with count := res.count + 1 }
  | none => wclist ++ [⟨word, 1⟩]

/-- `wordcount_sort`. -/
def wordcountSort (less : WordCount → WordCount → Bool) (wclist : List WordCount) :
    Option (List WordCount) :=
  listSort less wclist

end Locked

/-! ## Tallies -/

/-- The list tallies the words. -/
abbrev Tallies (wclist : List WordCount) (f : Str → ℤ) : Prop :=
  IsTally WordCount.word WordCount.count wclist f

/-- The elements are determined by word and count. -/
theorem wordCount_ext (a b : WordCount) (hw : a.word = b.word) (hc : a.count = b.count) :
    a = b := by
  cases a
  cases b
  simp_all

/-- An element is in the tally of a list of words iff its count is how often its word occurs. -/
theorem mem_iff_of_tallies {ws : List Str} {wclist : List WordCount} (h : Tallies wclist (occ ws))
    (wc : WordCount) : wc ∈ wclist ↔ wc.word ∈ ws ∧ wc.count = ws.count wc.word := by
  rw [h.mem_iff wordCount_ext wc, ← List.count_pos_iff]
  unfold occ
  omega

/-- `find_word` cuts the list at the element it finds. -/
theorem findIdx?_cut {p : WordCount → Bool} {l : List WordCount} {i : Nat}
    (h : l.findIdx? p = some i) (g : WordCount → WordCount) :
    ∃ pre e post, l = pre ++ e :: post ∧ p e = true ∧ l.modify i g = pre ++ g e :: post := by
  obtain ⟨hi, hp, -⟩ := List.findIdx?_eq_some_iff_getElem.mp h
  refine ⟨l.take i, l[i], l.drop (i + 1), ?_, hp, List.modify_eq_take_cons_drop hi⟩
  rw [← List.drop_eq_getElem_cons hi, List.take_append_drop]

/-- **Adding `n` to the count of a word**, in its element or in a new one, wherever it goes: the
list before and after. -/
inductive Added (word : Str) (n : Int) : List WordCount → List WordCount → Prop
  | old (pre : List WordCount) (e : WordCount) (post : List WordCount) (hword : e.word = word) :
      Added word n (pre ++ e :: post) (pre ++ ⟨e.word, e.count + n⟩ :: post)
  | new {l l' : List WordCount} (hword : word ∉ l.map WordCount.word)
      (hp : l'.Perm (⟨word, n⟩ :: l)) : Added word n l l'

theorem added_of_find {word : Str} {p : WordCount → Bool} (hp : ∀ wc, p wc = true ↔ wc.word = word)
    (n : Int) {l fresh : List WordCount} (hfresh : fresh.Perm (⟨word, n⟩ :: l)) :
    Added word n l (match l.findIdx? p with
      | some i => l.modify i fun wc => { wc with count := wc.count + n }
      | none => fresh) := by
  cases hi : l.findIdx? p with
  | some i =>
    obtain ⟨pre, e, post, rfl, he, hmod⟩ :=
      findIdx?_cut hi fun wc => { wc with count := wc.count + n }
    simp only [hmod]
    exact .old pre e post ((hp e).mp he)
  | none =>
    refine .new (fun hw => ?_) hfresh
    obtain ⟨wc, hwc, hword⟩ := List.mem_map.mp hw
    have := List.findIdx?_eq_none_iff.mp hi wc hwc
    rw [(hp wc).mpr hword] at this
    exact absurd this (by simp)

theorem Linked.addWord_added (l : List WordCount) (word : Str) :
    Added word 1 l (Linked.addWord l word) :=
  added_of_find (fun wc => by rw [beq_iff_eq, strcmp_eq_zero_iff, eq_comm]) 1 (.refl _)

theorem Pintos.addWordWithCount_added (l : List WordCount) (word : Str) (n : Int) :
    Added word n l (Pintos.addWordWithCount l word n) :=
  added_of_find (fun wc => by rw [beq_iff_eq, strcmp_eq_zero_iff]) n
    (List.perm_append_singleton ..)

theorem Locked.addWord_added (l : List WordCount) (word : Str) :
    Added word 1 l (Locked.addWord l word) :=
  added_of_find (fun wc => by rw [beq_iff_eq, strcmp_eq_zero_iff]) 1
    (List.perm_append_singleton ..)

theorem Added.tallies {word : Str} {n : Int} {l l' : List WordCount} (ha : Added word n l l')
    (hn : 0 < n) {f : Str → ℤ} (h : Tallies l f) : Tallies l' (f + Pi.single word n) := by
  cases ha with
  | old pre e post hword =>
    subst hword
    have hpos := (h.entry e (by simp)).1
    exact h.add_old rfl rfl (show 0 < e.count + n by omega)
  | new hword hp => exact (h.add_new (e := ⟨word, n⟩) hword hn).of_perm hp.symm

theorem Linked.addWord_tally (l : List WordCount) (f : Str → ℤ) (word : Str) (h : Tallies l f) :
    Tallies (Linked.addWord l word) (f + Pi.single word 1) :=
  (Linked.addWord_added l word).tallies Int.one_pos h

theorem Pintos.addWordWithCount_tally (l : List WordCount) (f : Str → ℤ) (word : Str) (n : Int)
    (hn : 0 < n) (h : Tallies l f) :
    Tallies (Pintos.addWordWithCount l word n) (f + Pi.single word n) :=
  (Pintos.addWordWithCount_added l word n).tallies hn h

theorem Pintos.addWord_tally (l : List WordCount) (f : Str → ℤ) (word : Str) (h : Tallies l f) :
    Tallies (Pintos.addWord l word) (f + Pi.single word 1) :=
  Pintos.addWordWithCount_tally l f word 1 Int.one_pos h

theorem Locked.addWord_tally (l : List WordCount) (f : Str → ℤ) (word : Str) (h : Tallies l f) :
    Tallies (Locked.addWord l word) (f + Pi.single word 1) :=
  (Locked.addWord_added l word).tallies Int.one_pos h

/-! ## `less_count` -/

theorem lessCount_iff {wc1 wc2 : WordCount} : lessCount wc1 wc2 = true ↔
    wc1.count < wc2.count ∨
      (wc1.count = wc2.count ∧ wc1.word.map UInt8.toNat < wc2.word.map UInt8.toNat) := by
  simp [lessCount, strcmp_neg_iff]

theorem lessCount_eq_false_iff {wc1 wc2 : WordCount} : lessCount wc1 wc2 = false ↔
    wc2.count < wc1.count ∨
      (wc1.count = wc2.count ∧ wc2.word.map UInt8.toNat ≤ wc1.word.map UInt8.toNat) := by
  rw [← Bool.not_eq_true, lessCount_iff, not_or, not_and, not_lt, not_lt]
  constructor
  · rintro ⟨h1, h2⟩
    rcases h1.lt_or_eq with h | h
    · exact Or.inl h
    · exact Or.inr ⟨h.symm, h2 h.symm⟩
  · rintro (h | ⟨h1, h2⟩)
    · exact ⟨h.le, fun he => absurd he h.ne'⟩
    · exact ⟨h1.ge, fun _ => h2⟩

theorem lessCount_strictWeak : StrictWeak lessCount where
  asymm a b h := by
    rw [lessCount_iff] at h
    rw [lessCount_eq_false_iff]
    exact h.imp id fun ⟨h1, h2⟩ => ⟨h1.symm, h2.le⟩
  trans a b c hab hbc := by
    rw [lessCount_eq_false_iff] at *
    rcases hab with h | ⟨h1, h2⟩
    · rcases hbc with h' | ⟨h1', -⟩
      · exact Or.inl (h.trans h')
      · exact Or.inl (h1' ▸ h)
    · rcases hbc with h' | ⟨h1', h2'⟩
      · exact Or.inl (h1 ▸ h')
      · exact Or.inr ⟨h1'.trans h1, h2.trans h2'⟩

/-- Elements that `less_count` does not tell apart are equal. -/
theorem lessCount_total {a b : WordCount} (hab : lessCount a b = false)
    (hba : lessCount b a = false) : a = b := by
  rw [lessCount_eq_false_iff] at hab hba
  have hcount : a.count = b.count := by
    rcases hab with h | h <;> rcases hba with h' | h' <;> omega
  have hword : a.word.map UInt8.toNat = b.word.map UInt8.toNat :=
    le_antisymm (hba.resolve_left hcount.not_lt).2 (hab.resolve_left hcount.not_gt).2
  cases a
  cases b
  simp only [WordCount.mk.injEq]
  exact ⟨map_toNat_injective hword, hcount⟩

/-! ## Sorting -/

variable {less : WordCount → WordCount → Bool}

theorem Linked.insertAfter_perm (elem : WordCount) :
    ∀ l, (Linked.insertAfter less elem l).Perm (elem :: l)
  | [] => .refl _
  | cur :: rest => by
    rw [insertAfter]
    split_ifs
    · exact ((insertAfter_perm elem rest).cons cur).trans (.swap elem cur rest)
    · exact .refl _

theorem Linked.insertAfter_ordered (h : StrictWeak less) {elem : WordCount} :
    ∀ {l}, Ordered less l → Ordered less (Linked.insertAfter less elem l)
  | [], _ => List.pairwise_singleton _ _
  | cur :: rest, hl => by
    obtain ⟨hcur, hrest⟩ := List.pairwise_cons.mp hl
    rw [insertAfter]
    split_ifs with hc
    · refine List.pairwise_cons.mpr ⟨?_, insertAfter_ordered h hrest⟩
      intro wc hwc
      rcases List.mem_cons.mp ((insertAfter_perm elem rest).mem_iff.mp hwc) with rfl | hwc
      · exact h.asymm cur wc hc
      · exact hcur wc hwc
    · have hec : less cur elem = false := by simpa using hc
      refine List.pairwise_cons.mpr ⟨?_, hl⟩
      intro wc hwc
      rcases List.mem_cons.mp hwc with rfl | hwc
      · exact hec
      · exact h.trans elem cur wc hec (hcur wc hwc)

theorem Linked.wordcountInsertOrdered_perm (l : List WordCount) (elem : WordCount) :
    (Linked.wordcountInsertOrdered less l elem).Perm (elem :: l) := by
  cases l with
  | nil => exact .refl _
  | cons prev rest =>
    unfold wordcountInsertOrdered
    simp only
    split_ifs
    · exact .refl _
    · exact ((insertAfter_perm elem rest).cons prev).trans (.swap elem prev rest)

theorem Linked.wordcountInsertOrdered_ordered (h : StrictWeak less) {l : List WordCount}
    (hl : Ordered less l) (elem : WordCount) :
    Ordered less (Linked.wordcountInsertOrdered less l elem) := by
  cases l with
  | nil => exact List.pairwise_singleton _ _
  | cons prev rest =>
    obtain ⟨hprev, hrest⟩ := List.pairwise_cons.mp hl
    unfold wordcountInsertOrdered
    simp only
    split_ifs with hc
    · have hpe : less prev elem = false := h.asymm elem prev hc
      refine List.pairwise_cons.mpr ⟨?_, hl⟩
      intro wc hwc
      rcases List.mem_cons.mp hwc with rfl | hwc
      · exact hpe
      · exact h.trans elem prev wc hpe (hprev wc hwc)
    · refine List.pairwise_cons.mpr ⟨?_, insertAfter_ordered h hrest⟩
      intro wc hwc
      rcases List.mem_cons.mp ((insertAfter_perm elem rest).mem_iff.mp hwc) with rfl | hwc
      · simpa using hc
      · exact hprev wc hwc

/-- **`wordcount_sort` of `word_count.c` sorts.** -/
theorem Linked.wordcountSort_spec (h : StrictWeak less) (l : List WordCount) :
    ∃ l', Linked.wordcountSort less l = some l' ∧ l'.Perm l ∧ Ordered less l' := by
  have hloop : ∀ (l sorted : List WordCount), Ordered less sorted →
      (l.foldl (wordcountInsertOrdered less) sorted).Perm (sorted ++ l) ∧
        Ordered less (l.foldl (wordcountInsertOrdered less) sorted) := by
    intro l
    induction l with
    | nil => exact fun sorted hs => ⟨by rw [List.append_nil]; exact .refl _, hs⟩
    | cons head l ih =>
      intro sorted hs
      obtain ⟨hp, ho⟩ := ih _ (wordcountInsertOrdered_ordered h hs head)
      refine ⟨hp.trans ?_, ho⟩
      exact ((wordcountInsertOrdered_perm sorted head).append_right l).trans
        List.perm_middle.symm
  obtain ⟨hp, ho⟩ := hloop l [] List.Pairwise.nil
  exact ⟨_, rfl, hp, ho⟩

/-- **`wordcount_sort` of `word_count_l.c` sorts.** -/
theorem Pintos.wordcountSort_spec (h : StrictWeak less) (l : List WordCount) :
    ∃ l', Pintos.wordcountSort less l = some l' ∧ l'.Perm l ∧ Ordered less l' :=
  listSort_spec h l

/-- **The sorted list depends on the counts only.** -/
theorem sorted_tally_unique {l l' m m' : List WordCount} {f : Str → ℤ} (h : Tallies l f)
    (h' : Tallies l' f) (hm : m.Perm l) (hm' : m'.Perm l') (ho : Ordered lessCount m)
    (ho' : Ordered lessCount m') : m = m' := by
  have hperm : l.Perm l' := h.perm h' wordCount_ext
  exact ordered_unique (fun a _ b _ => lessCount_total) ho ho'
    (hm.trans (hperm.trans hm'.symm))

end SystemProgramming.Words
