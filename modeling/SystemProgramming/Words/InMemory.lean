import Mathlib.Data.List.ReduceOption
import SystemProgramming.Lib.DataRefinement
import SystemProgramming.Words.BuiltList
import SystemProgramming.Words.Deque
import SystemProgramming.Words.LinkedWords
import SystemProgramming.Words.Main

/-!
# `words` and `lwords` in memory

`main` of `words.c` on the lists in memory of `word_count.c` and of `word_count_l.c`. What `malloc`
returns is given: `malloc i` is the address of the node if the call number `i` of `add_word` makes
one. It does not fail, and counts are taken to fit an `int`.

* `wordsMain_implements`: `main` in memory does what `main` on sequences of entries does, whenever
  the operations on lists do.
* `Linked.represents`, `Pintos.represents`: the operations of both files do.
* `words_in_memory`: so both programs come to the end in memory, and print the report of their
  input.
-/

namespace SystemProgramming.Words

open Lib

/-! ## The program over lists in memory -/

/-- What `words.c` uses of a word-count list, with a bound on the rounds of each loop. -/
structure MemoryImpl (σ : Type) where
  initWords : σ → Option σ
  addWord : Nat → σ → Str → Option σ
  wordcountSort : Nat → (WordCount → WordCount → Bool) → σ → Option σ
  fprintWords : Nat → σ → Option Str

namespace MemoryImpl

variable {σ : Type} (mem : MemoryImpl σ) (fuel : Nat)

/-- `count_words`. -/
def countWords (s : σ) (infile : Stream) : Option σ :=
  (Words.countWords (fun r word => r.bind fun s => mem.addWord fuel s word) (some s) infile).bind
    fun r => r.1

/-- The loop over `argv`. -/
def countFiles (s : σ) : List (Option Stream) → Option (Except Nat σ)
  | [] => some (.ok s)
  | none :: _ => some (.error 1)
  | some infile :: files => (mem.countWords fuel s infile).bind fun s => countFiles s files

/-- The end of `main`: sort with `less_count` and print. -/
def output (s : σ) : Option Str :=
  (mem.wordcountSort fuel lessCount s).bind fun s => mem.fprintWords fuel s

/-- `main` of `words.c`. -/
def wordsMain (s : σ) (argv : List (Option Stream)) (stdin : Stream) : Option Exit :=
  (mem.initWords s).bind fun s =>
    (if argv = [] then (mem.countWords fuel s stdin).map .ok else mem.countFiles fuel s argv).bind
      fun
      | .ok s => (mem.output fuel s).map fun text => ⟨0, text⟩
      | .error status => some ⟨status, []⟩

end MemoryImpl

/-- **The operations in memory do what the operations on entries do.** The relation `counting n`
leaves room for `n` more words. -/
structure Represents {σ : Type} (mem : MemoryImpl σ) (impl : WordCountImpl) (fuel : Nat) (start : σ)
    (counting : Nat → σ → List WordCount → Prop) (sorted : σ → List WordCount → Prop) : Prop where
  init : ∀ n < fuel, Implements (counting n) (mem.initWords start) (some [])
  add : ∀ n s l word, counting (n + 1) s l →
    Implements (counting n) (mem.addWord fuel s word) (some (impl.addWord l word))
  sort : ∀ n s l, counting n s l →
    Implements sorted (mem.wordcountSort fuel lessCount s) (impl.wordcountSort lessCount l)
  print : ∀ s l, sorted s l → mem.fprintWords fuel s = some (fprintWords l)

/-- The words that `main` counts. -/
def inputWords (argv : List (Option Stream)) (stdin : Stream) : List Str :=
  (if argv = [] then [stdin] else argv.reduceOption).flatMap wordsOf

/-- Both have counted, or both end with the same exit status. -/
inductive SameResult {σ : Type} (R : σ → List WordCount → Prop) :
    Except Nat σ → Except Nat (List WordCount) → Prop
  | ok {s : σ} {l : List WordCount} (h : R s l) : SameResult R (.ok s) (.ok l)
  | error (status : Nat) : SameResult R (.error status) (.error status)

section Client

variable {σ : Type} {mem : MemoryImpl σ} {impl : WordCountImpl} {fuel n : Nat} {start s : σ}
  {counting : Nat → σ → List WordCount → Prop} {sorted : σ → List WordCount → Prop}
  {l : List WordCount}

theorem countWords_implements (h : Represents mem impl fuel start counting sorted)
    (infile : Stream) (hs : counting ((wordsOf infile).length + n) s l) :
    Implements (counting n) (mem.countWords fuel s infile)
      ((countWords impl.addWord l infile).map Prod.fst) := by
  rw [MemoryImpl.countWords, countWords_eq, countWords_eq]
  exact Implements.foldl h.add (wordsOf infile) hs

/-- **The loop over `argv`** in memory. -/
theorem countFiles_implements (h : Represents mem impl fuel start counting sorted)
    (argv : List (Option Stream))
    (hs : counting ((argv.reduceOption.flatMap wordsOf).length + n) s l) :
    Implements (SameResult (counting n)) (mem.countFiles fuel s argv) (countFiles impl l argv) := by
  induction argv generalizing s l with
  | nil =>
    rw [List.reduceOption_nil, List.flatMap_nil, List.length_nil, Nat.zero_add] at hs
    exact .some (.ok hs)
  | cons file files ih =>
    cases file with
    | none => exact .some (.error 1)
    | some infile =>
      rw [List.reduceOption_cons_of_some, List.flatMap_cons, List.length_append,
        Nat.add_assoc] at hs
      have hmap : countFiles impl l (some infile :: files) =
          ((countWords impl.addWord l infile).map Prod.fst).bind fun l =>
            countFiles impl l files := by
        rw [countFiles, Option.bind_map]
        rfl
      rw [MemoryImpl.countFiles, hmap]
      exact (countWords_implements h infile hs).bind fun s l hs => ih hs

/-- Sorting and printing in memory. -/
theorem output_implements (h : Represents mem impl fuel start counting sorted)
    (hs : counting n s l) : Implements Eq (mem.output fuel s) (output impl l) := by
  intro text htext
  obtain ⟨l', hl', rfl⟩ := Option.map_eq_some_iff.mp htext
  obtain ⟨s', hs', hsorted⟩ := h.sort _ _ _ hs l' hl'
  exact ⟨_, by rw [MemoryImpl.output, hs', Option.bind_some, h.print s' l' hsorted], rfl⟩

/-- **`main` in memory** does what `main` on entries does. -/
theorem wordsMain_implements (h : Represents mem impl fuel start counting sorted)
    (argv : List (Option Stream)) (stdin : Stream) (hfuel : (inputWords argv stdin).length < fuel) :
    Implements Eq (mem.wordsMain fuel start argv stdin) (wordsMain impl argv stdin) := by
  have hcount : ∀ s, counting (inputWords argv stdin).length s [] →
      Implements (SameResult (counting 0))
        (if argv = [] then (mem.countWords fuel s stdin).map .ok else mem.countFiles fuel s argv)
        (if argv = [] then (countStreams impl [] [stdin]).map .ok
          else countFiles impl [] argv) := by
    intro s hs
    unfold inputWords at hs
    split_ifs at hs ⊢ with hnil
    · have hstdin : counting ((wordsOf stdin).length + 0) s [] := by simpa using hs
      have hstreams : countStreams impl [] [stdin] =
          (countWords impl.addWord [] stdin).map Prod.fst := by
        rw [countStreams]
        cases countWords impl.addWord [] stdin <;> rfl
      rw [hstreams]
      exact (countWords_implements h stdin hstdin).map fun s l hs => .ok hs
    · refine countFiles_implements h argv (n := 0) ?_
      simpa using hs
  obtain ⟨s, hs, hcounting⟩ := h.init _ hfuel [] rfl
  rw [MemoryImpl.wordsMain, hs, Option.bind_some]
  refine (hcount s hcounting).bind fun c c' hc => ?_
  cases hc with
  | ok hs => exact (output_implements h hs).map fun _ _ htext => by rw [htext]
  | error status => exact .some rfl

end Client

/-! ## `word_count.c` -/

namespace Linked

/-- The nodes, `word_counts`, and the number of calls of `add_word`. -/
structure State where
  memory : Memory
  wclist : Ptr
  calls : Nat

/-- `word_count.c`. -/
def memoryImpl (malloc : Nat → Addr) : MemoryImpl State where
  initWords s := some { s with wclist := none }
  addWord fuel s word := (s.memory.addWord fuel s.wclist word (malloc s.calls)).map
    fun (memory, wclist, _) => ⟨memory, wclist, s.calls + 1⟩
  wordcountSort fuel less s := (s.memory.wordcountSort fuel less s.wclist).map
    fun (memory, wclist) => { s with memory, wclist }
  fprintWords fuel s := s.memory.fprintWords fuel s.wclist

/-- The addresses that `malloc` still hands out are free. -/
def Free (malloc : Nat → Addr) (s : State) : Prop := ∀ i, s.calls ≤ i → s.memory (malloc i) = none

/-- While words are added: the list, and room for `n` more words. -/
structure Counting (malloc : Nat → Addr) (fuel n : Nat) (s : State)
    (nodes : List (Addr × WordCount)) : Prop where
  list : NullEnded s.memory s.wclist nodes
  nodup : (nodes.map Prod.fst).Nodup
  free : Free malloc s
  room : nodes.length + n < fuel

/-- When the list is printed. -/
structure Sorted (fuel : Nat) (s : State) (nodes : List (Addr × WordCount)) : Prop where
  list : NullEnded s.memory s.wclist nodes
  room : nodes.length < fuel

theorem length_addWord (l : List WordCount) (word : Str) :
    (addWord l word).length ≤ l.length + 1 := by
  unfold addWord
  split
  · rw [List.length_modify]
    exact Nat.le_succ _
  · exact Nat.le_refl _

theorem Counting.addWord {malloc : Nat → Addr} (hinj : Function.Injective malloc) {fuel n : Nat}
    {s : State} {nodes : List (Addr × WordCount)} (h : Counting malloc fuel (n + 1) s nodes)
    (word : Str) :
    ∃ s' nodes', (memoryImpl malloc).addWord fuel s word = some s' ∧
      Counting malloc fuel n s' nodes' ∧
      nodes'.map Prod.snd = Linked.addWord (nodes.map Prod.snd) word := by
  have hroom := h.room
  obtain ⟨m', p', r, nodes', hrun, hl', hnd', hmap, hframe⟩ := addWord_nullEnded word h.list h.nodup
    (h.free s.calls (Nat.le_refl _)) (by omega : nodes.length < fuel)
  refine ⟨⟨m', p', s.calls + 1⟩, nodes', by simp [memoryImpl, hrun], ⟨hl', hnd', ?_, ?_⟩, hmap⟩
  · intro i (hi : s.calls + 1 ≤ i)
    have hne : malloc i ≠ malloc s.calls := fun heq => by
      have := hinj heq
      omega
    exact hframe _ hne (h.free i (by omega))
  · have hlen : nodes'.length ≤ nodes.length + 1 := by
      have := length_addWord (nodes.map Prod.snd) word
      rwa [← hmap, List.length_map, List.length_map] at this
    omega

/-- **The operations of `word_count.c`** in memory. -/
theorem represents {malloc : Nat → Addr} (hinj : Function.Injective malloc) (fuel : Nat) {s : State}
    (hfree : Free malloc s) :
    Represents (memoryImpl malloc) words fuel s
      (fun n s l => ∃ nodes, Counting malloc fuel n s nodes ∧ nodes.map Prod.snd = l)
      (fun s l => ∃ nodes, Sorted fuel s nodes ∧ nodes.map Prod.snd = l) where
  init n hn := .some ⟨[], ⟨rfl, List.nodup_nil, hfree, by rwa [List.length_nil, Nat.zero_add]⟩, rfl⟩
  add := by
    rintro n s l word ⟨nodes, h, rfl⟩
    obtain ⟨s', nodes', hrun, h', hmap⟩ := h.addWord hinj word
    rw [hrun]
    exact .some ⟨nodes', h', hmap⟩
  sort := by
    rintro n s l ⟨nodes, h, rfl⟩
    have hroom := h.room
    have hfuel : nodes.length < fuel := by omega
    obtain ⟨m', p', nodes', hrun, hl', hperm, hmap⟩ := sortLoop_spec lessCount fuel s.memory
      s.wclist none nodes [] hfuel hfuel h.list rfl (by simpa using h.nodup)
    have hsort : (memoryImpl malloc).wordcountSort fuel lessCount s =
        some { s with memory := m', wclist := p' } := by
      simp [memoryImpl, Memory.wordcountSort, hrun]
    rw [hsort]
    exact .some ⟨nodes', ⟨hl', by simpa [hperm.length_eq] using hfuel⟩, hmap⟩
  print := by
    rintro s l ⟨nodes, h, rfl⟩
    exact fprintWords_spec h.list fuel h.room

end Linked

/-! ## `word_count_l.c` -/

namespace Heap

/-- The loop of `fprint_words`: what is written. -/
def fprintLoop (h : Heap WordCount) (wclist : PintosList) : Nat → Ptr → Option Str
  | 0, _ => none
  | fuel + 1, e =>
    if e ≠ listEnd wclist then do
      let wc ← h.listEntry e
      return wordLine wc ++ (← h.fprintLoop wclist fuel (← h.listNext e))
    else some []

/-- `fprint_words`. -/
def fprintWords (fuel : Nat) (h : Heap WordCount) (wclist : PintosList) : Option Str := do
  h.fprintLoop wclist fuel (← h.listBegin wclist)

end Heap

namespace Pintos

/-- The elements, and the number of calls of `add_word`. -/
structure State where
  heap : Heap WordCount
  calls : Nat

/-- `word_count_l.c`. -/
def memoryImpl (malloc : Nat → Addr) (wclist : PintosList) : MemoryImpl State where
  initWords s := (s.heap.initWords wclist).map fun heap => { s with heap }
  addWord fuel s word := (s.heap.addWordWithCount fuel wclist word 1 (malloc s.calls)).map
    fun (heap, _) => ⟨heap, s.calls + 1⟩
  wordcountSort fuel less s := (s.heap.wordcountSort fuel less wclist).map
    fun heap => { s with heap }
  fprintWords fuel s := s.heap.fprintWords fuel wclist

/-- The addresses that `malloc` still hands out are free. -/
def Free (malloc : Nat → Addr) (s : State) : Prop :=
  ∀ i, s.calls ≤ i → s.heap.live (malloc i) = false

/-- While words are added: the list, and room for `n` more words. -/
structure Counting (malloc : Nat → Addr) (wclist : PintosList) (fuel n : Nat) (s : State)
    (nodes : List (Addr × WordCount)) : Prop where
  list : IsList s.heap wclist nodes
  free : Free malloc s
  room : nodes.length + n < fuel

/-- When the list is printed. -/
structure Sorted (wclist : PintosList) (fuel : Nat) (s : State) (nodes : List (Addr × WordCount)) :
    Prop where
  list : IsList s.heap wclist nodes
  room : nodes.length < fuel

variable {h : Heap WordCount} {wclist : PintosList} {nodes s : List (Addr × WordCount)} {word : Str}
  {count : Int} {fresh : Addr}

/-- The loop of `fprint_words` walks the list. -/
theorem fprintLoop_spec (hr : Stretch h s wclist.tail) : ∀ fuel, s.length < fuel →
    h.fprintLoop wclist fuel (some (start s wclist.tail)) =
      some (fprintWords (s.map Prod.snd)) := by
  induction s with
  | nil =>
    intro fuel hfuel
    obtain ⟨fuel, rfl⟩ : ∃ n, fuel = n + 1 := ⟨fuel - 1, by omega⟩
    simp [Heap.fprintLoop, listEnd, fprintWords]
  | cons x s ih =>
    intro fuel hfuel
    obtain ⟨fuel, rfl⟩ : ∃ n, fuel = n + 1 := ⟨fuel - 1, by omega⟩
    rw [List.length_cons] at hfuel
    have hne : (some x.1 : Ptr) ≠ listEnd wclist := by simpa [listEnd] using hr.ne
    rw [Heap.fprintLoop, start_cons, if_pos hne, hr.listEntry, hr.listNext]
    simp [ih hr.tail fuel (by omega), fprintWords]

/-- **`fprint_words`** walks the list. -/
theorem fprintWords_spec (hl : IsList h wclist nodes) {fuel : Nat} (hfuel : nodes.length < fuel) :
    h.fprintWords fuel wclist = some (fprintWords (nodes.map Prod.snd)) := by
  rw [Heap.fprintWords, hl.listBegin]
  exact fprintLoop_spec (IsList.stretch (X := []) hl) fuel hfuel

theorem length_addWord (l : List WordCount) (word : Str) :
    (addWord l word).length ≤ l.length + 1 := by
  unfold addWord addWordWithCount
  split
  · rw [List.length_modify]
    exact Nat.le_succ _
  · rw [List.length_append]
    exact Nat.le_refl _

/-- `add_word_with_count` allocates nothing but the new element. -/
theorem addWordWithCount_live (hl : IsList h wclist nodes) (hfresh : h.live fresh = false)
    {fuel : Nat} (hfuel : nodes.length < fuel) {h' : Heap WordCount} {p : Ptr}
    (hrun : h.addWordWithCount fuel wclist word count fresh = some (h', p)) :
    ∀ a, a ≠ fresh → h'.live a = h.live a := by
  intro a ha
  rw [Heap.addWordWithCount, findWord_spec hl hfuel, Option.bind_eq_bind, Option.bind_some] at hrun
  cases hf : nodes.find? fun x => strcmp x.2.word word == 0 with
  | some x =>
    rw [hf, Option.map_some] at hrun
    obtain ⟨wc, -, hwc⟩ := Option.bind_eq_some_iff.mp hrun
    obtain ⟨rfl, -⟩ := Prod.mk.inj (Option.some.inj hwc)
    rfl
  | none =>
    obtain ⟨hl₁, hnew⟩ := hl.alloc hfresh ⟨word, count⟩
    have hentry : (h.alloc fresh ⟨word, count⟩).entry fresh = some ⟨word, count⟩ :=
      Function.update_self ..
    obtain ⟨h₁, hpush, -, hsame⟩ := listPushBack_isList (e := (fresh, ⟨word, count⟩)) hl₁
      (Function.update_self ..) hentry hnew
    rw [hf, Option.map_none] at hrun
    obtain ⟨h₂, hpush', hh₂⟩ := Option.bind_eq_some_iff.mp hrun
    obtain ⟨rfl, -⟩ := Prod.mk.inj (Option.some.inj hh₂)
    obtain rfl := Option.some.inj (hpush.symm.trans hpush')
    rw [hsame.live]
    exact Function.update_of_ne ha ..

theorem Counting.addWord {malloc : Nat → Addr} (hinj : Function.Injective malloc) {fuel n : Nat}
    {s : State} {nodes : List (Addr × WordCount)} (h : Counting malloc wclist fuel (n + 1) s nodes)
    (word : Str) :
    ∃ heap nodes', (memoryImpl malloc wclist).addWord fuel s word = some ⟨heap, s.calls + 1⟩ ∧
      Counting malloc wclist fuel n ⟨heap, s.calls + 1⟩ nodes' ∧
      nodes'.map Prod.snd = Pintos.addWord (nodes.map Prod.snd) word := by
  have hroom := h.room
  have hfuel : nodes.length < fuel := by omega
  have hfresh := h.free s.calls (Nat.le_refl _)
  obtain ⟨h', p, nodes', hrun, hl', hmap⟩ : ∃ h' p nodes',
      s.heap.addWordWithCount fuel wclist word 1 (malloc s.calls) = some (h', p) ∧
      IsList h' wclist nodes' ∧
      nodes'.map Prod.snd = addWordWithCount (nodes.map Prod.snd) word 1 :=
    addWordWithCount_isList word h.list hfresh hfuel
  refine ⟨h', nodes', by simp [memoryImpl, hrun], ⟨hl', ?_, ?_⟩, hmap⟩
  · intro i (hi : s.calls + 1 ≤ i)
    have hne : malloc i ≠ malloc s.calls := fun heq => by
      have := hinj heq
      omega
    exact (addWordWithCount_live h.list hfresh hfuel hrun _ hne).trans (h.free i (by omega))
  · have hlen : nodes'.length ≤ nodes.length + 1 := by
      have := length_addWord (nodes.map Prod.snd) word
      rwa [Pintos.addWord, ← hmap, List.length_map, List.length_map] at this
    omega

/-- **The operations of `word_count_l.c`** in memory. -/
theorem represents {malloc : Nat → Addr} (hinj : Function.Injective malloc) (fuel : Nat) {s : State}
    (hne : wclist.head ≠ wclist.tail) (hhead : s.heap.live wclist.head = true)
    (htail : s.heap.live wclist.tail = true)
    (hfree : Free malloc s) :
    Represents (memoryImpl malloc wclist) lwords fuel s
      (fun n s l => ∃ nodes, Counting malloc wclist fuel n s nodes ∧ nodes.map Prod.snd = l)
      (fun s l => ∃ nodes, Sorted wclist fuel s nodes ∧ nodes.map Prod.snd = l) where
  init n hn := by
    obtain ⟨h', hinit, hl, hlive, -⟩ := listInit_isList hne hhead htail
    have hrun : (memoryImpl malloc wclist).initWords s = some { s with heap := h' } := by
      simp [memoryImpl, Heap.initWords, hinit]
    rw [hrun]
    refine .some ⟨[], ⟨hl, fun i hi => ?_, by rwa [List.length_nil, Nat.zero_add]⟩, rfl⟩
    rw [hlive]
    exact hfree i hi
  add := by
    rintro n s l word ⟨nodes, h, rfl⟩
    obtain ⟨heap, nodes', hrun, h', hmap⟩ := h.addWord hinj word
    rw [hrun]
    exact .some ⟨nodes', h', hmap⟩
  sort := by
    rintro n s l ⟨nodes, h, rfl⟩
    have hroom := h.room
    have hfuel : nodes.length < fuel := by omega
    obtain ⟨nodes', hsort, hperm, hord⟩ := listSort_spec (nodeLess_strictWeak lessCount_strictWeak)
      nodes
    obtain ⟨h', hrun, hl'⟩ := sortLoop_run lessCount lessCount_strictWeak fuel s.heap nodes hfuel
      h.list nodes' (sortLoop_mono hfuel hsort)
    have hrun' : (memoryImpl malloc wclist).wordcountSort fuel lessCount s =
        some { s with heap := h' } := by
      simp [memoryImpl, Heap.wordcountSort, Heap.listSort, hrun]
    -- only one sequence of entries is in order
    obtain ⟨l', hsort', hperm', hord'⟩ := lwords_lawful.sort (nodes.map Prod.snd)
    have heq : nodes'.map Prod.snd = l' :=
      ordered_unique (fun a _ b _ => lessCount_total) (List.pairwise_map.mpr hord) hord'
        ((hperm.map Prod.snd).trans hperm'.symm)
    rw [hrun', hsort']
    exact .some ⟨nodes', ⟨hl', by rwa [hperm.length_eq]⟩, heq⟩
  print := by
    rintro s l ⟨nodes, h, rfl⟩
    exact fprintWords_spec h.list h.room

end Pintos

/-! ## Both programs -/

/-- A file that cannot be opened ends the loop over `argv`. -/
theorem countFiles_unreadable (impl : WordCountImpl) {argv : List (Option Stream)}
    (h : none ∈ argv) (l : List WordCount) : countFiles impl l argv = some (.error 1) := by
  induction argv generalizing l with
  | nil => exact absurd h List.not_mem_nil
  | cons file files ih =>
    cases file with
    | none => rfl
    | some infile =>
      rw [countFiles, countWords_eq, Option.bind_some]
      exact ih (by simpa using h) _

theorem map_some_reduceOption {α : Type} {l : List (Option α)} (h : none ∉ l) :
    l.reduceOption.map some = l := by
  induction l with
  | nil => rfl
  | cons x l ih =>
    rw [List.mem_cons, not_or] at h
    obtain ⟨y, rfl⟩ := Option.ne_none_iff_exists'.mp (Ne.symm h.1)
    rw [List.reduceOption_cons_of_some, List.map_cons, ih h.2]

/-- **What `main` prints**, for an implementation that adds and sorts. -/
theorem wordsMain_report {impl : WordCountImpl} (h : impl.Lawful) (argv : List (Option Stream))
    (stdin : Stream) :
    (none ∈ argv → wordsMain impl argv stdin = some ⟨1, []⟩) ∧
    (none ∉ argv → ∃ entries, wordsMain impl argv stdin = some ⟨0, fprintWords entries⟩ ∧
      IsReport (occ (inputWords argv stdin)) entries) := by
  refine ⟨fun hnone => ?_, fun hnone => ?_⟩
  · rw [wordsMain, if_neg (List.ne_nil_of_mem hnone), countFiles_unreadable impl hnone]
    rfl
  · by_cases hnil : argv = []
    · subst hnil
      obtain ⟨entries, hout, hrep⟩ := wordsOutput_isReport h [stdin]
      exact ⟨entries, by rw [wordsMain_stdin, hout]; rfl, hrep⟩
    · have hargv := map_some_reduceOption hnone
      obtain ⟨entries, hout, hrep⟩ := wordsOutput_isReport h argv.reduceOption
      have hne : argv.reduceOption ≠ [] := fun heq => hnil (by rw [← hargv, heq]; rfl)
      refine ⟨entries, ?_, by rwa [inputWords, if_neg hnil]⟩
      have hmain := wordsMain_readable impl hne stdin
      rw [hargv, hout] at hmain
      exact hmain

/-- **`words` and `lwords` in memory**, for every way in which `malloc` hands out addresses. Both
come to the end without following a pointer that leads nowhere. If a file cannot be opened, both
exit with status 1; else both print the report of their input. -/
theorem words_in_memory (malloc : Nat → Addr) (hinj : Function.Injective malloc)
    {m : Linked.Memory} (hm : ∀ i, m (malloc i) = none) (p : Ptr)
    {h : Heap WordCount} (wclist : PintosList) (hne : wclist.head ≠ wclist.tail)
    (hhead : h.live wclist.head = true) (htail : h.live wclist.tail = true)
    (hh : ∀ i, h.live (malloc i) = false) (argv : List (Option Stream)) (stdin : Stream)
    {fuel : Nat} (hfuel : (inputWords argv stdin).length < fuel) :
    ∃ exit, (Linked.memoryImpl malloc).wordsMain fuel ⟨m, p, 0⟩ argv stdin = some exit ∧
      (Pintos.memoryImpl malloc wclist).wordsMain fuel ⟨h, 0⟩ argv stdin = some exit ∧
      (none ∈ argv → exit = ⟨1, []⟩) ∧
      (none ∉ argv → ∃ entries, exit = ⟨0, fprintWords entries⟩ ∧
        IsReport (occ (inputWords argv stdin)) entries) := by
  have hwords : Linked.Free malloc ⟨m, p, 0⟩ := fun i _ => hm i
  have hlwords : Pintos.Free malloc ⟨h, 0⟩ := fun i _ => hh i
  have hlinked := wordsMain_implements (Linked.represents hinj fuel hwords) argv stdin hfuel
  have hpintos := wordsMain_implements (Pintos.represents hinj fuel hne hhead htail hlwords) argv
    stdin hfuel
  obtain ⟨hw₁, hw₂⟩ := wordsMain_report words_lawful argv stdin
  obtain ⟨hl₁, hl₂⟩ := wordsMain_report lwords_lawful argv stdin
  by_cases hnone : none ∈ argv
  · obtain ⟨_, h₁, rfl⟩ := hlinked _ (hw₁ hnone)
    obtain ⟨_, h₂, rfl⟩ := hpintos _ (hl₁ hnone)
    exact ⟨_, h₁, h₂, fun _ => rfl, fun h => absurd hnone h⟩
  · obtain ⟨entries, hw, hrep⟩ := hw₂ hnone
    obtain ⟨entries', hl, hrep'⟩ := hl₂ hnone
    obtain rfl := hrep.unique hrep'
    obtain ⟨_, h₁, rfl⟩ := hlinked _ hw
    obtain ⟨_, h₂, rfl⟩ := hpintos _ hl
    exact ⟨_, h₁, h₂, fun h => absurd h hnone, fun _ => ⟨entries, rfl, hrep⟩⟩

/-- Before `main`: nothing but `word_counts`, at `0` and `1`, is allocated. -/
def emptyHeap : Heap WordCount where
  prev _ := none
  next _ := none
  live a := decide (a < 2)
  entry _ := none

/-- Three words, two of them equal. -/
theorem words_in_memory_ab :
    ∃ exit entries,
      (Linked.memoryImpl (· + 2)).wordsMain 4 ⟨fun _ => none, none, 0⟩
        [some (bytes "ab cd AB")] [] = some exit ∧
      (Pintos.memoryImpl (· + 2) ⟨0, 1⟩).wordsMain 4 ⟨emptyHeap, 0⟩
        [some (bytes "ab cd AB")] [] = some exit ∧
      exit = ⟨0, fprintWords entries⟩ ∧
      IsReport (occ [bytes "ab", bytes "cd", bytes "ab"]) entries := by
  have hwords : inputWords [some (bytes "ab cd AB")] [] = [bytes "ab", bytes "cd", bytes "ab"] := by
    decide
  have hfuel : (inputWords [some (bytes "ab cd AB")] []).length < 4 := by
    rw [hwords]
    decide
  obtain ⟨exit, h₁, h₂, -, h⟩ := words_in_memory (· + 2)
    (fun i j hij => Nat.add_right_cancel hij) (m := fun _ => none) (fun _ => rfl) none
    (h := emptyHeap) ⟨0, 1⟩ (by decide) rfl rfl (by simp [emptyHeap])
    [some (bytes "ab cd AB")] [] hfuel
  obtain ⟨entries, hexit, hrep⟩ := h (by decide)
  exact ⟨exit, entries, h₁, h₂, hexit, hwords ▸ hrep⟩

end SystemProgramming.Words
