import SystemProgramming.Words.LinkedSort

/-!
# `word_count.c` on nodes in memory

`find_word`, `add_word` and `fprint_words` of `word_count.c` on the nodes themselves. The address
that `malloc` returns is an argument.

* `addWord_nullEnded`: adding a word to a list does in memory what it does on the sequence of
  entries.
* `fprintWords_spec`: printing walks the list.
-/

namespace SystemProgramming.Words.Linked

open Lib

namespace Memory

/-- The loop of `find_word`. -/
def findWordLoop (m : Memory) (word : Str) : Nat → Ptr → Option Ptr
  | 0, _ => none
  | fuel + 1, wc =>
    if wc ≠ none then do
      let n ← m.get wc
      if strcmp word n.wc.word ≠ 0 then m.findWordLoop word fuel n.next
      else return wc
    else some none

/-- `find_word`: the node, or `NULL`. -/
def findWord (fuel : Nat) (m : Memory) (wclist : Ptr) (word : Str) : Option Ptr :=
  m.findWordLoop word fuel wclist

/-- `add_word`: the memory, `*wclist` and the result. -/
def addWord (fuel : Nat) (m : Memory) (wclist : Ptr) (word : Str) (fresh : Addr) :
    Option (Memory × Ptr × Ptr) := do
  match ← m.findWord fuel wclist word with
  | some wc =>
    let n ← m wc
    return (Function.update m wc (some { n with wc := { n.wc with count := n.wc.count + 1 } }),
      wclist, some wc)
  | none => return (Function.update m fresh (some ⟨⟨word, 1⟩, wclist⟩), some fresh, some fresh)

/-- The loop of `fprint_words`: what is written. -/
def fprintLoop (m : Memory) : Nat → Ptr → Option Str
  | 0, _ => none
  | fuel + 1, wc =>
    if wc ≠ none then do
      let n ← m.get wc
      return wordLine n.wc ++ (← m.fprintLoop fuel n.next)
    else some []

/-- `fprint_words`. -/
def fprintWords (fuel : Nat) (m : Memory) (wclist : Ptr) : Option Str := m.fprintLoop fuel wclist

end Memory

variable {m : Memory} {p : Ptr} {nodes X Y : List (Addr × WordCount)} {x : Addr × WordCount}
  {word : Str} {fuel : Nat} {fresh : Addr}

/-- The nodes of a list are allocated. -/
theorem NullEnded.allocated (hl : NullEnded m p nodes) :
    ∀ a ∈ nodes.map Prod.fst, m a ≠ none := by
  induction nodes generalizing p with
  | nil => simp
  | cons x nodes ih =>
    obtain ⟨-, next, hx, hrest⟩ := hl
    intro a ha
    rcases List.mem_cons.mp ha with rfl | ha
    · simp [hx]
    · exact ih hrest a ha

/-- A node of the list. -/
theorem NullEnded.at_node (hl : NullEnded m p (X ++ x :: Y)) :
    ∃ next, m x.1 = some ⟨x.2, next⟩ := by
  induction X generalizing p with
  | nil =>
    obtain ⟨-, next, hx, -⟩ := hl
    exact ⟨next, hx⟩
  | cons y X ih =>
    obtain ⟨-, next, -, hrest⟩ := hl
    exact ih hrest

/-- A new entry in one of the nodes. -/
theorem NullEnded.setEntry (hl : NullEnded m p (X ++ x :: Y))
    (hnd : ((X ++ x :: Y).map Prod.fst).Nodup) {next : Ptr} (hx : m x.1 = some ⟨x.2, next⟩)
    (wc : WordCount) :
    NullEnded (Function.update m x.1 (some ⟨wc, next⟩)) p (X ++ (x.1, wc) :: Y) := by
  induction X generalizing p with
  | nil =>
    obtain ⟨hp, next', hx', hrest⟩ := hl
    obtain rfl : next' = next := by simpa [hx'] using hx
    exact ⟨hp, next', Function.update_self .., hrest.update (List.nodup_cons.mp hnd).1⟩
  | cons y X ih =>
    obtain ⟨hp, next', hy, hrest⟩ := hl
    obtain ⟨hyn, hnd⟩ := List.nodup_cons.mp hnd
    have hne : y.1 ≠ x.1 := fun heq => hyn (by simp [heq])
    exact ⟨hp, next', by rw [Function.update_of_ne hne, hy], ih hrest hnd⟩

/-- The loop of `find_word` finds the first node with the word. -/
theorem findWordLoop_spec (word : Str) (hl : NullEnded m p nodes) : ∀ fuel, nodes.length < fuel →
    m.findWordLoop word fuel p =
      some ((nodes.find? fun x => strcmp word x.2.word == 0).map Prod.fst) := by
  induction nodes generalizing p with
  | nil =>
    intro fuel hfuel
    obtain ⟨fuel, rfl⟩ : ∃ n, fuel = n + 1 := ⟨fuel - 1, by omega⟩
    obtain rfl : p = none := hl
    simp [Memory.findWordLoop]
  | cons x nodes ih =>
    intro fuel hfuel
    obtain ⟨fuel, rfl⟩ : ∃ n, fuel = n + 1 := ⟨fuel - 1, by omega⟩
    obtain ⟨rfl, next, hx, hrest⟩ := hl
    have hloop : m.findWordLoop word (fuel + 1) (some x.1) =
        if strcmp word x.2.word ≠ 0 then m.findWordLoop word fuel next else some (some x.1) := by
      simp [Memory.findWordLoop, Memory.get, hx]
    rw [hloop]
    by_cases h : strcmp word x.2.word = 0
    · rw [if_neg (by simp [h]), List.find?_cons_of_pos (by simp [h]), Option.map_some]
    · rw [List.length_cons] at hfuel
      rw [if_pos h, ih hrest fuel (by omega), List.find?_cons_of_neg (by simp [h])]

/-- `find_word` on the sequence of entries, where no node has the word. -/
theorem findWord_none (hnone : nodes.find? (fun x => strcmp word x.2.word == 0) = none) :
    findWord (nodes.map Prod.snd) word = none := by
  refine List.findIdx?_eq_none_iff.mpr fun wc hwc => ?_
  obtain ⟨y, hy, rfl⟩ := List.mem_map.mp hwc
  simpa using List.find?_eq_none.mp hnone y hy

/-- `find_word` on the sequence of entries, where a node is the first one with the word. -/
theorem findWord_some (hpre : X.find? (fun x => strcmp word x.2.word == 0) = none)
    (hx : (strcmp word x.2.word == 0) = true) :
    findWord ((X ++ x :: Y).map Prod.snd) word = some X.length := by
  rw [findWord, List.map_append, List.findIdx?_append, ← findWord, findWord_none hpre,
    List.map_cons, List.findIdx?_cons, if_pos hx]
  simp

/-- **`add_word` in memory** does what it does on the sequence of entries, and allocates nothing
but the new node. -/
theorem addWord_nullEnded (word : Str) (hl : NullEnded m p nodes) (hnd : (nodes.map Prod.fst).Nodup)
    (hfresh : m fresh = none) (hfuel : nodes.length < fuel) :
    ∃ m' p' r nodes', m.addWord fuel p word fresh = some (m', p', r) ∧ NullEnded m' p' nodes' ∧
      (nodes'.map Prod.fst).Nodup ∧ nodes'.map Prod.snd = addWord (nodes.map Prod.snd) word ∧
      ∀ a, a ≠ fresh → m a = none → m' a = none := by
  have hfind := findWordLoop_spec word hl fuel hfuel
  cases hf : nodes.find? fun x => strcmp word x.2.word == 0 with
  | some x =>
    obtain ⟨hx, X, Y, rfl, hX⟩ := List.find?_eq_some_iff_append.mp hf
    have hpre : X.find? (fun x => strcmp word x.2.word == 0) = none :=
      List.find?_eq_none.mpr fun y hy => by simpa using hX y hy
    obtain ⟨next, hnode⟩ := hl.at_node
    rw [hf] at hfind
    refine ⟨_, p, some x.1, X ++ (x.1, { x.2 with count := x.2.count + 1 }) :: Y, ?_,
      hl.setEntry hnd hnode _, by simpa using hnd, ?_, ?_⟩
    · simp [Memory.addWord, Memory.findWord, hfind, hnode]
    · rw [addWord, findWord_some hpre hx]
      simp [List.modify_eq_take_cons_drop, List.drop_append]
    · intro a _ ha
      have hne : a ≠ x.1 := fun heq => absurd (heq ▸ ha) (by simp [hnode])
      rw [Function.update_of_ne hne, ha]
  | none =>
    have hnew : fresh ∉ nodes.map Prod.fst := fun hmem => hl.allocated fresh hmem hfresh
    rw [hf] at hfind
    refine ⟨_, some fresh, some fresh, (fresh, ⟨word, 1⟩) :: nodes, ?_,
      ⟨rfl, p, Function.update_self .., hl.update hnew⟩, List.nodup_cons.mpr ⟨hnew, hnd⟩, ?_, ?_⟩
    · simp [Memory.addWord, Memory.findWord, hfind]
    · rw [addWord, findWord_none hf]
      rfl
    · intro a hne ha
      rw [Function.update_of_ne hne, ha]

/-- **`fprint_words`** walks the list. -/
theorem fprintWords_spec (hl : NullEnded m p nodes) : ∀ fuel, nodes.length < fuel →
    m.fprintWords fuel p = some (Words.fprintWords (nodes.map Prod.snd)) := by
  induction nodes generalizing p with
  | nil =>
    intro fuel hfuel
    obtain ⟨fuel, rfl⟩ : ∃ n, fuel = n + 1 := ⟨fuel - 1, by omega⟩
    obtain rfl : p = none := hl
    rfl
  | cons x nodes ih =>
    intro fuel hfuel
    obtain ⟨fuel, rfl⟩ : ∃ n, fuel = n + 1 := ⟨fuel - 1, by omega⟩
    obtain ⟨rfl, next, hx, hrest⟩ := hl
    rw [List.length_cons] at hfuel
    have hloop := ih hrest fuel (by omega)
    rw [Memory.fprintWords] at hloop
    simp [Memory.fprintWords, Memory.fprintLoop, Memory.get, hx, hloop, Words.fprintWords]

end SystemProgramming.Words.Linked
