import Mathlib.Data.List.TakeWhile
import SystemProgramming.Lib.Bytes

/-!
# Reading words

`get_word` and `count_words` of `word_helpers.c`. A `FILE *` is the list of bytes still to be read,
and `fgetc` at the end of it is `EOF`. The buffer that `get_word` fills carries its capacity, and a
write past it is `none`. `malloc` and `realloc` are taken to succeed.

`wordsOf` says what the words of a stream are: the maximal runs of letters, of length at least 2,
in lower case.

* `getWord_spec`: `get_word` never writes past its buffer and returns the first run of letters.
* `countWords_eq`: `count_words` gives the words of the stream to `add_word`, in order, and
  leaves nothing unread.
-/

namespace SystemProgramming.Words

open Lib

/-- What is still to be read of a file. -/
abbrev Stream := List UInt8

/-! ## `get_word` -/

/-- The buffer of `get_word`: its capacity and the bytes stored below `index`. -/
structure Buffer where
  bufferCap : Nat
  stored : Str

/-- `buffer[index++] = ch`, if it is inside the buffer. -/
def Buffer.put (b : Buffer) (ch : UInt8) : Option Buffer :=
  if b.stored.length < b.bufferCap then some { b with stored := b.stored ++ [ch] } else none

/-- Expand the buffer if it is full. -/
def Buffer.expand (b : Buffer) : Buffer :=
  if b.stored.length = b.bufferCap then { b with bufferCap := b.bufferCap * 2 } else b

/-- The first loop of `get_word`: the first letter and what follows it. -/
def skipInitial : Stream → Option (UInt8 × Stream)
  | [] => none
  | ch :: infile => if isalpha ch then some (ch, infile) else skipInitial infile

/-- The second loop of `get_word`, which stores the letter `ch` and reads on. The byte after the
last letter is read too. -/
def accumulate (b : Buffer) (ch : UInt8) : Stream → Option (Buffer × Stream)
  | [] => (b.put (tolower ch)).map fun b => (b.expand, [])
  | ch' :: infile =>
    (b.put (tolower ch)).bind fun b =>
      if isalpha ch' then accumulate b.expand ch' infile else some (b.expand, infile)

/-- `get_word`: the word, `[]` at the end of the file, and what is left of the file. -/
def getWord (infile : Stream) : Option (Str × Stream) :=
  match skipInitial infile with
  | none => some ([], [])
  | some (ch, infile) =>
    (accumulate ⟨16, []⟩ ch infile).bind fun r =>
      -- the terminating NUL goes to `buffer[index]`
      (r.1.put 0).map fun _ => (r.1.stored, r.2)

/-- There is room for one more byte. -/
def Buffer.Room (b : Buffer) : Prop := b.stored.length < b.bufferCap

theorem put_of_room {b : Buffer} (h : b.Room) (ch : UInt8) :
    b.put ch = some { b with stored := b.stored ++ [ch] } := if_pos h

theorem room_expand {b : Buffer} (h : b.Room) (ch : UInt8) :
    Buffer.Room (Buffer.expand { b with stored := b.stored ++ [ch] }) := by
  unfold Buffer.Room at h
  unfold Buffer.expand Buffer.Room
  simp only [List.length_append, List.length_singleton]
  split_ifs <;> simp only [List.length_append, List.length_singleton] <;> omega

@[simp] theorem stored_expand (b : Buffer) : b.expand.stored = b.stored := by
  unfold Buffer.expand
  split_ifs <;> rfl

/-- What follows a run of letters, less the byte that ended it. -/
def afterRun (s : Stream) : Stream := (s.dropWhile isalpha).tail

/-- The second loop stores the run of letters in lower case and keeps its writes inside. -/
theorem accumulate_spec (s : Stream) (b : Buffer) (hb : b.Room) (ch : UInt8) :
    ∃ b', accumulate b ch s = some (b', afterRun s) ∧ b'.Room ∧
      b'.stored = b.stored ++ tolower ch :: (s.takeWhile isalpha).map tolower := by
  induction s generalizing b ch with
  | nil =>
    exact ⟨_, by rw [accumulate, put_of_room hb]; rfl, room_expand hb _, by simp⟩
  | cons ch' s ih =>
    rw [accumulate, put_of_room hb, Option.bind_some]
    cases hch : isalpha ch' with
    | true =>
      obtain ⟨b', hb', hroom, hst⟩ := ih _ (room_expand hb (tolower ch)) ch'
      refine ⟨b', ?_, hroom, by rw [hst]; simp [hch]⟩
      rw [if_pos rfl, hb']
      simp [afterRun, hch]
    | false =>
      refine ⟨_, ?_, room_expand hb (tolower ch), by simp [hch]⟩
      simp [afterRun, hch]

/-- **`get_word`** succeeds. It returns nothing when no letter is left, and otherwise the first
run of letters in lower case and what follows. -/
theorem getWord_spec (s : Stream) :
    getWord s = some (match s.dropWhile fun ch => !isalpha ch with
      | [] => ([], [])
      | ch :: t => (tolower ch :: (t.takeWhile isalpha).map tolower, afterRun t)) := by
  have hskip : skipInitial s = match s.dropWhile fun ch => !isalpha ch with
      | [] => none
      | ch :: t => some (ch, t) := by
    induction s with
    | nil => rfl
    | cons ch s ih =>
      rw [skipInitial]
      cases hch : isalpha ch with
      | true => simp [hch]
      | false => simpa [hch] using ih
  unfold getWord
  rw [hskip]
  cases hd : s.dropWhile fun ch => !isalpha ch with
  | nil => rfl
  | cons ch t =>
    obtain ⟨b', hb', hroom, hst⟩ := accumulate_spec t ⟨16, []⟩ (by decide : 0 < 16) ch
    simp only [hb', Option.bind_some, put_of_room hroom, Option.map_some, hst, List.nil_append]

/-- A word takes its letters from the file. -/
theorem length_getWord {s : Stream} {word : Str} {rest : Stream} (h : getWord s = some (word, rest))
    (hw : word ≠ []) : rest.length < s.length := by
  rw [getWord_spec] at h
  have hlen := (List.dropWhile_suffix (l := s) fun ch => !isalpha ch).length_le
  cases hd : s.dropWhile fun ch => !isalpha ch with
  | nil =>
    rw [hd] at h
    exact absurd (Prod.mk.inj (Option.some.inj h)).1.symm hw
  | cons ch t =>
    rw [hd] at h hlen
    obtain ⟨-, rfl⟩ := Prod.mk.inj (Option.some.inj h)
    have h1 := (List.dropWhile_suffix (l := t) isalpha).length_le
    unfold afterRun
    rw [List.length_tail]
    rw [List.length_cons] at hlen
    omega

/-! ## `count_words` -/

/-- `count_words` with the `add_word` of one of the implementations: the list and what is left of
the file. -/
def countWords {ω : Type} (addWord : ω → Str → ω) (wclist : ω) (infile : Stream) :
    Option (ω × Stream) :=
  match _h : getWord infile with
  | none => none
  | some (word, rest) =>
    if _hw : word = [] then some (wclist, rest)
    else if word.length = 1 then countWords addWord wclist rest
    else countWords addWord (addWord wclist word) rest
  termination_by infile.length
  decreasing_by
    · exact length_getWord _h _hw
    · exact length_getWord _h _hw

/-- **The words of a stream**: its maximal runs of letters, of length at least 2, in lower case. -/
def wordsOf (s : Stream) : List Str :=
  ((s.splitOnP fun ch => !isalpha ch).filter fun run => 2 ≤ run.length).map fun run =>
    run.map tolower

theorem wordsOf_nil : wordsOf [] = [] := rfl

/-- What stands before the first letter does not matter. -/
theorem wordsOf_dropWhile (s : Stream) :
    wordsOf (s.dropWhile fun ch => !isalpha ch) = wordsOf s := by
  induction s with
  | nil => rfl
  | cons ch s ih =>
    cases hch : isalpha ch with
    | true => simp [hch]
    | false =>
      rw [List.dropWhile_cons_of_pos (by simp [hch]), ih]
      unfold wordsOf
      rw [List.splitOnP_cons_eq_if_modifyHead, if_pos (by simp [hch])]
      simp

/-- The first run of letters, and the words after it. -/
theorem wordsOf_cons {ch : UInt8} (hch : isalpha ch = true) (t : Stream) :
    wordsOf (ch :: t) = (if t.takeWhile isalpha = [] then []
      else [(ch :: t.takeWhile isalpha).map tolower]) ++ wordsOf (afterRun t) := by
  have hrun : ∀ c ∈ ch :: t.takeWhile isalpha, (!isalpha c) = false := by
    intro c hc
    rcases List.mem_cons.mp hc with rfl | hc
    · simp [hch]
    · simp [List.mem_takeWhile_imp hc]
  have hsplit : ∀ rest,
      ((ch :: t).splitOnP fun c => !isalpha c) = (ch :: t.takeWhile isalpha) :: rest →
      wordsOf (ch :: t) = (if t.takeWhile isalpha = [] then []
        else [(ch :: t.takeWhile isalpha).map tolower]) ++
          (rest.filter fun run => 2 ≤ run.length).map fun run => run.map tolower := by
    intro rest hs
    unfold wordsOf
    rw [hs, List.filter_cons]
    cases t.takeWhile isalpha <;> simp
  have hjoin := List.takeWhile_append_dropWhile (p := isalpha) (l := t)
  cases hd : t.dropWhile isalpha with
  | nil =>
    rw [hd, List.append_nil] at hjoin
    rw [hsplit [] ?_]
    · simp [afterRun, hd, wordsOf_nil]
    · rw [hjoin] at hrun ⊢
      exact List.splitOnP_eq_singleton hrun
  | cons c u =>
    rw [hd] at hjoin
    have hc : (!isalpha c) = true := by
      have := List.head?_dropWhile_not isalpha t
      rw [hd] at this
      simpa using this
    rw [hsplit (u.splitOnP fun c => !isalpha c) ?_]
    · simp [afterRun, hd, wordsOf]
    · conv_lhs => rw [← hjoin, ← List.cons_append]
      exact List.splitOnP_append_cons_of_forall_mem hrun c hc u

/-- What `get_word` returns, in terms of the words of the stream. -/
theorem wordsOf_getWord {s rest : Stream} {word : Str} (h : getWord s = some (word, rest)) :
    (word = [] ∧ wordsOf s = [] ∧ rest = []) ∨
      (word ≠ [] ∧ wordsOf s = (if word.length = 1 then [] else [word]) ++ wordsOf rest) := by
  rw [getWord_spec, ← wordsOf_dropWhile s] at *
  cases hd : s.dropWhile fun ch => !isalpha ch with
  | nil =>
    rw [hd] at h
    obtain ⟨rfl, rfl⟩ := Prod.mk.inj (Option.some.inj h)
    exact Or.inl ⟨rfl, wordsOf_nil, rfl⟩
  | cons ch t =>
    have hch : isalpha ch = true := by
      have := List.head?_dropWhile_not (fun ch => !isalpha ch) s
      rw [hd] at this
      simpa using this
    rw [hd] at h
    obtain ⟨rfl, rfl⟩ := Prod.mk.inj (Option.some.inj h)
    refine Or.inr ⟨by simp, ?_⟩
    rw [wordsOf_cons hch t]
    congr 1
    cases t.takeWhile isalpha <;> simp

/-- **`count_words`** gives the words of the stream to `add_word`, in order, and reads all of it. -/
theorem countWords_eq {ω : Type} (addWord : ω → Str → ω) (wclist : ω) (s : Stream) :
    countWords addWord wclist s = some ((wordsOf s).foldl addWord wclist, []) := by
  fun_induction countWords addWord wclist s with
  | case1 wclist s h => exact absurd (h.symm.trans (getWord_spec s)) (by simp)
  | case2 wclist s rest h =>
    obtain ⟨-, hs, rfl⟩ := (wordsOf_getWord h).resolve_right fun hne => hne.1 rfl
    rw [hs]
    rfl
  | case3 wclist s word rest h hw h1 ih =>
    obtain ⟨-, hs⟩ := (wordsOf_getWord h).resolve_left fun he => hw he.1
    rw [ih, hs, if_pos h1, List.nil_append]
  | case4 wclist s word rest h hw h1 ih =>
    obtain ⟨-, hs⟩ := (wordsOf_getWord h).resolve_left fun he => hw he.1
    rw [ih, hs, if_neg h1, List.singleton_append, List.foldl_cons]

theorem of_mem_splitOnP {p : UInt8 → Bool} : ∀ {s : Stream} {run : List UInt8},
    run ∈ s.splitOnP p → ∀ c ∈ run, p c = false
  | [], run, h, c, hc => by
    rw [List.splitOnP_nil, List.mem_singleton] at h
    rw [h] at hc
    exact absurd hc List.not_mem_nil
  | ch :: s, run, h, c, hc => by
    rw [List.splitOnP_cons_eq_if_modifyHead] at h
    split_ifs at h with hch
    · rcases List.mem_cons.mp h with rfl | h
      · exact absurd hc List.not_mem_nil
      · exact of_mem_splitOnP h c hc
    · obtain ⟨r, rs, hr⟩ := List.exists_cons_of_ne_nil (List.splitOnP_ne_nil p s)
      have ih : ∀ run ∈ s.splitOnP p, ∀ c ∈ run, p c = false := fun _ h => of_mem_splitOnP h
      rw [hr] at h ih
      rcases List.mem_cons.mp h with rfl | h
      · rcases List.mem_cons.mp hc with rfl | hc
        · simpa using hch
        · exact ih r List.mem_cons_self c hc
      · exact ih run (List.mem_cons_of_mem r h) c hc

/-- A word is at least two lower-case letters. -/
theorem of_mem_wordsOf {s : Stream} {word : Str} (h : word ∈ wordsOf s) :
    2 ≤ word.length ∧ ∀ ch ∈ word, islower ch = true := by
  obtain ⟨run, hrun, rfl⟩ := List.mem_map.mp h
  obtain ⟨hs, hlen⟩ := List.mem_filter.mp hrun
  refine ⟨by simpa using hlen, ?_⟩
  intro ch hch
  obtain ⟨c, hc, rfl⟩ := List.mem_map.mp hch
  exact islower_tolower (by simpa using of_mem_splitOnP hs c hc)

end SystemProgramming.Words
