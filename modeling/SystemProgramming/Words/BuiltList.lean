import SystemProgramming.Words.InPlaceSort

/-!
# Word-count lists in memory

`init_words`, `find_word` and `add_word_with_count` of `word_count_l.c` on the elements in memory.
The address that `malloc` returns is an argument.

* `addWordWithCount_isList`: adding a word to a well-formed list does in memory what it does on the
  sequence of entries.
* `built_isList`: every list that these functions build is well formed.
-/

namespace SystemProgramming.Words

open Lib

namespace Heap

/-- `init_words`. -/
def initWords (h : Heap WordCount) (wclist : PintosList) : Option (Heap WordCount) :=
  h.listInit wclist

/-- The loop of `find_word`. -/
def findWordLoop (h : Heap WordCount) (wclist : PintosList) (word : Str) : Nat → Ptr → Option Ptr
  | 0, _ => none
  | fuel + 1, e =>
    if e ≠ listEnd wclist then do
      let wc ← h.listEntry e
      if strcmp wc.word word = 0 then return e
      else h.findWordLoop wclist word fuel (← h.listNext e)
    else some none

/-- `find_word`: the element of the entry, or `NULL`. -/
def findWord (fuel : Nat) (h : Heap WordCount) (wclist : PintosList) (word : Str) : Option Ptr := do
  h.findWordLoop wclist word fuel (← h.listBegin wclist)

/-- A new element at `fresh`, in the structure that `malloc` returns. -/
def alloc (h : Heap WordCount) (fresh : Addr) (wc : WordCount) : Heap WordCount :=
  { h with
    live := Function.update h.live fresh true
    entry := Function.update h.entry fresh (some wc) }

/-- `add_word_with_count`. -/
def addWordWithCount (fuel : Nat) (h : Heap WordCount) (wclist : PintosList) (word : Str)
    (count : Int) (fresh : Addr) : Option (Heap WordCount × Ptr) := do
  match ← h.findWord fuel wclist word with
  | some res =>
    let wc ← h.listEntry (some res)
    return ({ h with
      entry := Function.update h.entry res (some { wc with count := wc.count + count }) }, some res)
  | none =>
    let h ← (h.alloc fresh ⟨word, count⟩).listPushBack wclist (some fresh)
    return (h, some fresh)

end Heap

variable {h : Heap WordCount} {wclist : PintosList} {nodes s : List (Addr × WordCount)} {word : Str}
  {count : Int} {fresh : Addr}

theorem Stretch.listEntry {x : Addr × WordCount} {b : Addr} (hr : Stretch h (x :: s) b) :
    h.listEntry (some x.1) = some x.2 := by
  rw [Heap.listEntry, deref_of_live (hr.live x.1 (by simp)), Option.bind_some,
    hr.entry x List.mem_cons_self]

/-- The loop of `find_word` finds the first node with the word. -/
theorem findWordLoop_spec (hr : Stretch h s wclist.tail) : ∀ fuel, s.length < fuel →
    h.findWordLoop wclist word fuel (some (start s wclist.tail)) =
      some ((s.find? fun x => strcmp x.2.word word == 0).map Prod.fst) := by
  induction s with
  | nil =>
    intro fuel hfuel
    obtain ⟨fuel, rfl⟩ : ∃ n, fuel = n + 1 := ⟨fuel - 1, by omega⟩
    simp [Heap.findWordLoop, listEnd]
  | cons x s ih =>
    intro fuel hfuel
    obtain ⟨fuel, rfl⟩ : ∃ n, fuel = n + 1 := ⟨fuel - 1, by omega⟩
    rw [List.length_cons] at hfuel
    have hne : (some x.1 : Ptr) ≠ listEnd wclist := by simpa [listEnd] using hr.ne
    rw [Heap.findWordLoop, start_cons, if_pos hne, hr.listEntry, hr.listNext]
    by_cases hw : strcmp x.2.word word = 0
    · simp [hw]
    · simp [hw, ih hr.tail fuel (by omega)]

/-- The entry of a node changes. -/
theorem IsList.setEntry {X Y : List (Addr × WordCount)} {x : Addr × WordCount}
    (hl : IsList h wclist (X ++ x :: Y)) (wc : WordCount) :
    IsList { h with entry := Function.update h.entry x.1 (some wc) } wclist
      (X ++ (x.1, wc) :: Y) := by
  have helems : wclist.elems (X ++ (x.1, wc) :: Y) = wclist.elems (X ++ x :: Y) := by
    simp [PintosList.elems]
  have hnd : ((X ++ x :: Y).map Prod.fst).Nodup := (List.nodup_cons.mp hl.nodup).2.of_append_left
  rw [List.map_append, List.map_cons, List.nodup_middle, List.nodup_cons, List.mem_append,
    not_or] at hnd
  have hother : ∀ y : Addr × WordCount, y.1 ≠ x.1 → h.entry y.1 = some y.2 →
      Function.update h.entry x.1 (some wc) y.1 = some y.2 := fun y hne hy => by
    rw [Function.update_of_ne hne, hy]
  refine ⟨helems ▸ hl.nodup, helems ▸ hl.live, hl.head_prev, hl.tail_next, helems ▸ hl.chained, ?_⟩
  intro y hy
  rcases List.mem_append.mp hy with hy | hy
  · exact hother y (fun heq => hnd.1.1 (heq ▸ List.mem_map_of_mem hy))
      (hl.entry y (List.mem_append_left _ hy))
  · rcases List.mem_cons.mp hy with rfl | hy
    · exact Function.update_self ..
    · exact hother y (fun heq => hnd.1.2 (heq ▸ List.mem_map_of_mem hy))
        (hl.entry y (by simp [hy]))

/-- The list in a memory with one more element. -/
theorem IsList.alloc (hl : IsList h wclist nodes) (hfresh : h.live fresh = false) (wc : WordCount) :
    IsList (h.alloc fresh wc) wclist nodes ∧ fresh ∉ wclist.elems nodes := by
  have hnew : fresh ∉ wclist.elems nodes := fun hmem => by
    rw [hl.live fresh hmem] at hfresh
    exact absurd hfresh (by simp)
  have hne : ∀ a ∈ wclist.elems nodes, a ≠ fresh := fun a ha heq => hnew (heq ▸ ha)
  refine ⟨⟨hl.nodup, ?_, hl.head_prev, hl.tail_next, hl.chained, ?_⟩, hnew⟩
  · exact fun a ha => (Function.update_of_ne (hne a ha) ..).trans (hl.live a ha)
  · intro x hx
    have hmem : x.1 ∈ wclist.elems nodes := by
      simp only [PintosList.elems, List.mem_cons, List.mem_append]
      exact Or.inl (Or.inr (List.mem_map_of_mem hx))
    exact (Function.update_of_ne (hne _ hmem) ..).trans (hl.entry x hx)

/-- `find_word` in memory. -/
theorem findWord_spec (hl : IsList h wclist nodes) {fuel : Nat} (hfuel : nodes.length < fuel) :
    h.findWord fuel wclist word =
      some ((nodes.find? fun x => strcmp x.2.word word == 0).map Prod.fst) := by
  rw [Heap.findWord, hl.listBegin]
  exact findWordLoop_spec (IsList.stretch (X := []) hl) fuel hfuel

/-- `find_word` on the sequence of entries, where no node has the word. -/
theorem pintos_findWord_none (hnone : nodes.find? (fun x => strcmp x.2.word word == 0) = none) :
    Pintos.findWord (nodes.map Prod.snd) word = none := by
  refine List.findIdx?_eq_none_iff.mpr fun wc hwc => ?_
  obtain ⟨y, hy, rfl⟩ := List.mem_map.mp hwc
  simpa using List.find?_eq_none.mp hnone y hy

/-- `find_word` on the sequence of entries, where a node is the first one with the word. -/
theorem pintos_findWord_some {X Y : List (Addr × WordCount)} {x : Addr × WordCount}
    (hpre : X.find? (fun x => strcmp x.2.word word == 0) = none)
    (hx : (strcmp x.2.word word == 0) = true) :
    Pintos.findWord ((X ++ x :: Y).map Prod.snd) word = some X.length := by
  rw [Pintos.findWord, List.map_append, List.findIdx?_append,
    ← Pintos.findWord, pintos_findWord_none hpre, List.map_cons, List.findIdx?_cons, if_pos hx]
  simp

/-- A word that is in the list. -/
theorem addWordWithCount_found (count : Int) (fresh : Addr) {X Y : List (Addr × WordCount)}
    {x : Addr × WordCount} (hl : IsList h wclist (X ++ x :: Y))
    (hpre : X.find? (fun x => strcmp x.2.word word == 0) = none)
    (hx : (strcmp x.2.word word == 0) = true) {fuel : Nat}
    (hfuel : (X ++ x :: Y).length < fuel) :
    h.addWordWithCount fuel wclist word count fresh = some ({ h with
        entry := Function.update h.entry x.1 (some { x.2 with count := x.2.count + count }) },
        some x.1) ∧
      (X ++ (x.1, { x.2 with count := x.2.count + count }) :: Y).map Prod.snd =
        Pintos.addWordWithCount ((X ++ x :: Y).map Prod.snd) word count := by
  have hfind : (X ++ x :: Y).find? (fun x => strcmp x.2.word word == 0) = some x := by
    rw [List.find?_append, hpre, Option.none_or]
    exact List.find?_cons_of_pos hx
  have hentry : h.listEntry (some x.1) = some x.2 := (hl.stretch (s := x :: Y)).listEntry
  refine ⟨?_, ?_⟩
  · rw [Heap.addWordWithCount, findWord_spec hl hfuel, hfind]
    simp [hentry]
  · rw [Pintos.addWordWithCount, pintos_findWord_some hpre hx]
    simp [List.modify_eq_take_cons_drop, List.drop_append]

/-- A word that is not in the list. -/
theorem addWordWithCount_new (hl : IsList h wclist nodes) (hfresh : h.live fresh = false)
    (hnone : nodes.find? (fun x => strcmp x.2.word word == 0) = none) {fuel : Nat}
    (hfuel : nodes.length < fuel) :
    (∃ h', h.addWordWithCount fuel wclist word count fresh = some (h', some fresh) ∧
      IsList h' wclist (nodes ++ [(fresh, ⟨word, count⟩)])) ∧
      (nodes ++ [(fresh, WordCount.mk word count)]).map Prod.snd =
        Pintos.addWordWithCount (nodes.map Prod.snd) word count := by
  obtain ⟨hl₁, hnew⟩ := hl.alloc hfresh ⟨word, count⟩
  obtain ⟨h', hpush, hl', -⟩ := listInsert_isList (X := nodes) (Y := [])
    (e := (fresh, ⟨word, count⟩)) (by simpa using hl₁) (Function.update_self ..)
    (Function.update_self ..) (by simpa using hnew)
  refine ⟨⟨h', ?_, hl'⟩, ?_⟩
  · rw [Heap.addWordWithCount, findWord_spec hl hfuel, hnone, Option.map_none,
      Option.bind_eq_bind, Option.bind_some, Heap.listPushBack, listEnd]
    exact congrArg (fun o => o.bind fun h => some (h, some fresh)) hpush
  · rw [Pintos.addWordWithCount, pintos_findWord_none hnone]
    simp

/-- **`add_word_with_count` in memory** does what it does on the sequence of entries. -/
theorem addWordWithCount_isList (word : Str) (hl : IsList h wclist nodes)
    (hfresh : h.live fresh = false) {fuel : Nat} (hfuel : nodes.length < fuel) :
    ∃ h' p nodes', h.addWordWithCount fuel wclist word count fresh = some (h', p) ∧
      IsList h' wclist nodes' ∧
      nodes'.map Prod.snd = Pintos.addWordWithCount (nodes.map Prod.snd) word count := by
  cases hf : nodes.find? fun x => strcmp x.2.word word == 0 with
  | some x =>
    obtain ⟨hx, X, Y, rfl, hX⟩ := List.find?_eq_some_iff_append.mp hf
    have hpre : X.find? (fun x => strcmp x.2.word word == 0) = none :=
      List.find?_eq_none.mpr fun y hy => by simpa using hX y hy
    obtain ⟨hrun, hentries⟩ := addWordWithCount_found count fresh hl hpre hx hfuel
    exact ⟨_, _, _, hrun, hl.setEntry _, hentries⟩
  | none =>
    obtain ⟨⟨h', hrun, hl'⟩, hentries⟩ := addWordWithCount_new hl hfresh hf hfuel
    exact ⟨h', some fresh, _, hrun, hl', hentries⟩

/-- **The lists that the functions build**: empty ones, and what adding a word to one makes of it.
The calls return for enough fuel. -/
inductive Built (wclist : PintosList) : Heap WordCount → Prop
  | init {h h' : Heap WordCount} (hne : wclist.head ≠ wclist.tail)
      (hhead : h.live wclist.head = true) (htail : h.live wclist.tail = true)
      (hrun : h.initWords wclist = some h') : Built wclist h'
  | add {h h' : Heap WordCount} {p : Ptr} (hb : Built wclist h) (word : Str) (count : Int)
      {fresh : Addr} (hfresh : h.live fresh = false)
      (hrun : ∃ n, ∀ fuel, n ≤ fuel →
        h.addWordWithCount fuel wclist word count fresh = some (h', p)) : Built wclist h'

/-- **Every list that the functions build is well formed.** -/
theorem built_isList (hb : Built wclist h) : ∃ nodes, IsList h wclist nodes := by
  induction hb with
  | init hne hhead htail hrun =>
    obtain ⟨h', hinit, hl, -⟩ := listInit_isList hne hhead htail
    obtain rfl := Option.some.inj (hinit.symm.trans hrun)
    exact ⟨[], hl⟩
  | add hb word count hfresh hrun ih =>
    obtain ⟨nodes, hl⟩ := ih
    obtain ⟨n, hrun⟩ := hrun
    obtain ⟨h', p, nodes', hadd, hl', -⟩ := addWordWithCount_isList word hl hfresh
      (by omega : nodes.length < max n (nodes.length + 1))
    have := hadd.symm.trans (hrun _ (Nat.le_max_left ..))
    obtain ⟨rfl, -⟩ := Prod.mk.inj (Option.some.inj this)
    exact ⟨nodes', hl'⟩

end SystemProgramming.Words
