import SystemProgramming.Words.ListElem
import SystemProgramming.Words.WordCount

/-!
# `list_sort` in place

`list_sort` of `list.c` on the elements in memory: runs are found by following the links, and
merged by splicing. The loops run on fuel, and running out of it is `none`, as a failing `ASSERT`
is.

* `isSorted_spec`, `findEndOfRun_spec`, `inplaceMerge_spec`, `sortPass_run`, `sortLoop_run`: each
  function does on the nodes what the one of the same name does on their sequence.
* `wordcountSort_isList`: the sort of a well-formed list ends with a well-formed list of the same
  nodes, in order, where nodes that compare equal keep theirs.
-/

namespace SystemProgramming.Words

open Lib

variable {α : Type}

namespace Heap

/-- `less_list`: the comparison of the entries. -/
def lessList (h : Heap α) (less : α → α → Bool) (ewc1 ewc2 : Ptr) : Option Bool := do
  return less (← h.listEntry ewc1) (← h.listEntry ewc2)

/-- The loop of `is_sorted`. -/
def isSortedLoop (h : Heap α) (less : α → α → Bool) (b : Ptr) : Nat → Ptr → Option Bool
  | 0, _ => none
  | fuel + 1, a => do
    let a ← h.listNext a
    if a = b then return true
    else if ← h.lessList less a (← h.listPrev a) then return false
    else h.isSortedLoop less b fuel a

/-- `is_sorted`. -/
def isSorted (fuel : Nat) (h : Heap α) (less : α → α → Bool) (a b : Ptr) : Option Bool :=
  if a ≠ b then h.isSortedLoop less b fuel a else some true

/-- The loop of `find_end_of_run`. -/
def endOfRunLoop (h : Heap α) (less : α → α → Bool) (b : Ptr) : Nat → Ptr → Option Ptr
  | 0, _ => none
  | fuel + 1, a => do
    let a ← h.listNext a
    if a ≠ b then
      if ← h.lessList less a (← h.listPrev a) then return a
      else h.endOfRunLoop less b fuel a
    else return a

/-- `find_end_of_run`. -/
def findEndOfRun (fuel : Nat) (h : Heap α) (less : α → α → Bool) (a b : Ptr) : Option Ptr :=
  if a ≠ none ∧ b ≠ none ∧ a ≠ b then h.endOfRunLoop less b fuel a else none

/-- The loop of `inplace_merge`. -/
def mergeLoop (less : α → α → Bool) (b1 : Ptr) : Nat → Heap α → Ptr → Ptr → Option (Heap α)
  | 0, _, _, _ => none
  | fuel + 1, h, a0, a1b0 =>
    if a0 ≠ a1b0 ∧ a1b0 ≠ b1 then do
      if ← h.lessList less a1b0 a0 then
        let a1b0 ← h.listNext a1b0
        let h ← h.listSplice a0 (← h.listPrev a1b0) a1b0
        mergeLoop less b1 fuel h a0 a1b0
      else mergeLoop less b1 fuel h (← h.listNext a0) a1b0
    else some h

/-- `inplace_merge`. -/
def inplaceMerge (fuel : Nat) (h : Heap α) (less : α → α → Bool) (a0 a1b0 b1 : Ptr) :
    Option (Heap α) :=
  if a0 ≠ none ∧ a1b0 ≠ none ∧ b1 ≠ none then do
    if ← h.isSorted fuel less a0 a1b0 then
      if ← h.isSorted fuel less a1b0 b1 then mergeLoop less b1 fuel h a0 a1b0 else none
    else none
  else none

/-- The inner loop of `list_sort`: the memory and `output_run_cnt`. -/
def sortPass (fuel : Nat) (less : α → α → Bool) (list : PintosList) :
    Nat → Heap α → Ptr → Nat → Option (Heap α × Nat)
  | 0, _, _, _ => none
  | rounds + 1, h, a0, outputRunCnt =>
    if a0 ≠ listEnd list then do
      let outputRunCnt := outputRunCnt + 1
      let a1b0 ← h.findEndOfRun fuel less a0 (listEnd list)
      if a1b0 = listEnd list then return (h, outputRunCnt)
      else
        let b1 ← h.findEndOfRun fuel less a1b0 (listEnd list)
        let h ← h.inplaceMerge fuel less a0 a1b0 b1
        sortPass fuel less list rounds h b1 outputRunCnt
    else some (h, outputRunCnt)

/-- The outer loop of `list_sort`, with the `ASSERT` after it. -/
def sortLoop (fuel : Nat) (less : α → α → Bool) (list : PintosList) :
    Nat → Heap α → Option (Heap α)
  | 0, _ => none
  | rounds + 1, h => do
    let (h, outputRunCnt) ← sortPass fuel less list fuel h (← h.listBegin list) 0
    if outputRunCnt > 1 then sortLoop fuel less list rounds h
    else if ← h.isSorted fuel less (← h.listBegin list) (listEnd list) then some h else none

/-- `list_sort`. -/
def listSort (fuel : Nat) (h : Heap α) (less : α → α → Bool) (list : PintosList) :
    Option (Heap α) := sortLoop fuel less list fuel h

/-- `wordcount_sort`. -/
def wordcountSort (fuel : Nat) (h : Heap WordCount) (less : WordCount → WordCount → Bool)
    (wclist : PintosList) : Option (Heap WordCount) := h.listSort fuel less wclist

end Heap

/-! ## Parts of a list -/

/-- **Nodes in a row**, with the element that follows them. -/
structure Stretch (h : Heap α) (s : List (Addr × α)) (b : Addr) : Prop where
  nodup : (s.map Prod.fst ++ [b]).Nodup
  live : ∀ a ∈ s.map Prod.fst ++ [b], h.live a = true
  chained : h.Chained (s.map Prod.fst ++ [b])
  entry : ∀ x ∈ s, h.entry x.1 = some x.2

variable {h : Heap α} {list : PintosList} (less : α → α → Bool) {s t X Y : List (Addr × α)}
  {x y : Addr × α} {b : Addr}

/-- The nodes from a node on, up to the tail. -/
theorem IsList.stretch (hl : IsList h list (X ++ s)) : Stretch h s list.tail := by
  have helems := elems_append list X s
  have hnd := hl.nodup
  have hch := hl.chained
  have hlive := hl.live
  rw [helems] at hnd hch hlive
  exact ⟨hnd.of_append_right, fun a ha => hlive a (List.mem_append_right _ ha), hch.right,
    fun x hx => hl.entry x (List.mem_append_right _ hx)⟩

theorem Stretch.drop (hr : Stretch h (s ++ t) b) : Stretch h t b := by
  obtain ⟨hnd, hlive, hch, hentry⟩ := hr
  rw [List.map_append, List.append_assoc] at hnd hch hlive
  exact ⟨hnd.of_append_right, fun a ha => hlive a (List.mem_append_right _ ha), hch.right,
    fun x hx => hentry x (List.mem_append_right _ hx)⟩

theorem Stretch.tail (hr : Stretch h (x :: s) b) : Stretch h s b := Stretch.drop (s := [x]) hr

theorem Stretch.take (hr : Stretch h (s ++ t) b) : Stretch h s (start t b) := by
  obtain ⟨hnd, hlive, hch, hentry⟩ := hr
  have hsplit : ∃ r, (s ++ t).map Prod.fst ++ [b] = s.map Prod.fst ++ [start t b] ++ r := by
    cases t with
    | nil => exact ⟨[], by simp⟩
    | cons y t => exact ⟨t.map Prod.fst ++ [b], by simp⟩
  obtain ⟨r, hr⟩ := hsplit
  rw [hr] at hnd hch hlive
  exact ⟨hnd.of_append_left, fun a ha => hlive a (List.mem_append_left _ ha), hch.left,
    fun x hx => hentry x (List.mem_append_left _ hx)⟩

theorem Stretch.joined (hr : Stretch h (x :: s) b) : h.Joined x.1 (start s b) :=
  Links.Chained.joined (l := [x.1]) hr.chained rfl (head?_start s b)

theorem Stretch.listNext (hr : Stretch h (x :: s) b) :
    h.listNext (some x.1) = some (some (start s b)) :=
  listNext_of_joined (hr.live x.1 (by simp)) hr.joined

theorem Stretch.listPrev (hr : Stretch h (x :: s) b) :
    h.listPrev (some (start s b)) = some (some x.1) :=
  listPrev_of_joined (hr.live _ (List.mem_cons_of_mem _ (List.mem_of_head? (head?_start s b))))
    hr.joined

/-- A node is not the element that follows the nodes. -/
theorem Stretch.ne (hr : Stretch h (x :: s) b) : x.1 ≠ b :=
  fun heq => (List.nodup_cons.mp hr.nodup).1 (by simp [heq])

theorem Stretch.start_ne_end (hr : Stretch h s list.tail) (hs : s ≠ []) :
    (some (start s list.tail) : Ptr) ≠ listEnd list := by
  obtain ⟨x, s, rfl⟩ := List.exists_cons_of_ne_nil hs
  simpa [listEnd] using hr.ne

theorem Stretch.lessList (hr : Stretch h s b) (hx : x ∈ s) (hy : y ∈ s) :
    h.lessList less (some x.1) (some y.1) = some (nodeLess less x y) := by
  have hentry : ∀ z ∈ s, h.listEntry (some z.1) = some z.2 := fun z hz => by
    rw [Heap.listEntry, deref_of_live (hr.live z.1
      (List.mem_append_left _ (List.mem_map_of_mem hz))), Option.bind_some, hr.entry z hz]
  rw [Heap.lessList, hentry x hx, hentry y hy]
  rfl

/-! ## The functions -/

theorem isSortedLoop_spec (hr : Stretch h (x :: s) b) : ∀ fuel, s.length < fuel →
    h.isSortedLoop less (some b) fuel (some x.1) = some (isSorted (nodeLess less) (x :: s)) := by
  induction s generalizing x with
  | nil =>
    intro fuel hfuel
    obtain ⟨fuel, rfl⟩ : ∃ n, fuel = n + 1 := ⟨fuel - 1, by omega⟩
    simp [Heap.isSortedLoop, hr.listNext, isSorted]
  | cons y s ih =>
    intro fuel hfuel
    obtain ⟨fuel, rfl⟩ : ∃ n, fuel = n + 1 := ⟨fuel - 1, by omega⟩
    rw [List.length_cons] at hfuel
    have hyb : y.1 ≠ b := hr.tail.ne
    have hprev := hr.listPrev
    have hless := hr.lessList less (x := y) (y := x) (by simp) (by simp)
    rw [start_cons] at hprev
    simp only [Heap.isSortedLoop, hr.listNext, start_cons, Option.bind_eq_bind, Option.bind_some,
      Option.some.injEq, hyb, if_false, hprev, hless, isSorted, ih hr.tail fuel (by omega)]
    cases nodeLess less y x <;> rfl

theorem isSorted_spec (hr : Stretch h s b) {fuel : Nat} (hfuel : s.length < fuel) :
    h.isSorted fuel less (some (start s b)) (some b) = some (isSorted (nodeLess less) s) := by
  cases s with
  | nil => simp [Heap.isSorted, isSorted]
  | cons x s =>
    rw [List.length_cons] at hfuel
    rw [Heap.isSorted, if_pos (by simpa using hr.ne)]
    exact isSortedLoop_spec less hr fuel (by omega)

theorem endOfRunLoop_spec (hr : Stretch h (x :: s) b) : ∀ fuel, s.length < fuel →
    h.endOfRunLoop less (some b) fuel (some x.1) =
      some (some (start (findEndOfRun (nodeLess less) (x :: s)).2 b)) := by
  induction s generalizing x with
  | nil =>
    intro fuel hfuel
    obtain ⟨fuel, rfl⟩ : ∃ n, fuel = n + 1 := ⟨fuel - 1, by omega⟩
    simp [Heap.endOfRunLoop, hr.listNext, findEndOfRun]
  | cons y s ih =>
    intro fuel hfuel
    obtain ⟨fuel, rfl⟩ : ∃ n, fuel = n + 1 := ⟨fuel - 1, by omega⟩
    rw [List.length_cons] at hfuel
    have hyb : y.1 ≠ b := hr.tail.ne
    have hprev := hr.listPrev
    have hless := hr.lessList less (x := y) (y := x) (by simp) (by simp)
    rw [start_cons] at hprev
    simp only [Heap.endOfRunLoop, hr.listNext, start_cons, Option.bind_eq_bind, Option.bind_some,
      Ne, Option.some.injEq, hyb, not_false_eq_true, if_true, hprev, hless, findEndOfRun,
      ih hr.tail fuel (by omega)]
    cases nodeLess less y x <;> rfl

theorem findEndOfRun_spec (hr : Stretch h s b) (hs : s ≠ []) {fuel : Nat}
    (hfuel : s.length < fuel) :
    h.findEndOfRun fuel less (some (start s b)) (some b) =
      some (some (start (findEndOfRun (nodeLess less) s).2 b)) := by
  obtain ⟨x, s, rfl⟩ := List.exists_cons_of_ne_nil hs
  rw [List.length_cons] at hfuel
  rw [Heap.findEndOfRun, if_pos (by simpa using hr.ne)]
  exact endOfRunLoop_spec less hr fuel (by omega)

/-- One round of the loop of `inplace_merge`, while there are nodes left on both sides. -/
theorem mergeLoop_succ {as bs : List (Addr × α)} {a b : Addr × α}
    (hl : IsList h list (X ++ a :: as ++ b :: bs ++ Y)) (fuel : Nat) :
    Heap.mergeLoop less (some (start Y list.tail)) (fuel + 1) h (some a.1) (some b.1) =
      if nodeLess less b a then
        (h.listSplice (some a.1) (some b.1) (some (start (bs ++ Y) list.tail))).bind fun h =>
          Heap.mergeLoop less (some (start Y list.tail)) fuel h (some a.1)
            (some (start (bs ++ Y) list.tail))
      else Heap.mergeLoop less (some (start Y list.tail)) fuel h
        (some (start (as ++ b :: bs ++ Y) list.tail)) (some b.1) := by
  have hs : Stretch h ((a :: as) ++ ((b :: bs) ++ Y)) list.tail :=
    IsList.stretch (X := X) (by simpa using hl)
  have hab : a.1 ≠ b.1 := hs.take.ne
  have hbY : b.1 ≠ start Y list.tail := hs.drop.take.ne
  have hnexta : h.listNext (some a.1) = some (some (start (as ++ b :: bs ++ Y) list.tail)) := by
    simpa using Stretch.listNext (s := as ++ (b :: bs ++ Y)) hs
  have hnextb : h.listNext (some b.1) = some (some (start (bs ++ Y) list.tail)) :=
    Stretch.listNext (s := bs ++ Y) hs.drop
  have hprev : h.listPrev (some (start (bs ++ Y) list.tail)) = some (some b.1) :=
    Stretch.listPrev (s := bs ++ Y) hs.drop
  have hless : h.lessList less (some b.1) (some a.1) = some (nodeLess less b a) :=
    hs.lessList less (by simp) (by simp)
  rw [Heap.mergeLoop, if_pos ⟨by simpa using hab, by simpa using hbY⟩, hless, hnexta, hnextb]
  cases nodeLess less b a
  · rfl
  · simp only [Option.bind_eq_bind, Option.bind_some, if_true, hprev]

/-- **The loop of `inplace_merge`** on two rows, one behind the other. -/
theorem mergeLoop_spec (as bs : List (Addr × α)) : ∀ (fuel : Nat) (h : Heap α)
    (X : List (Addr × α)), as.length + bs.length < fuel → IsList h list (X ++ as ++ bs ++ Y) →
    ∃ h', Heap.mergeLoop less (some (start Y list.tail)) fuel h
        (some (start (as ++ bs ++ Y) list.tail)) (some (start (bs ++ Y) list.tail)) = some h' ∧
      IsList h' list (X ++ mergeLoop (nodeLess less) as bs ++ Y) := by
  fun_induction mergeLoop (nodeLess less) as bs with
  | case1 bs =>
    intro fuel h X hfuel hl
    obtain ⟨fuel, rfl⟩ : ∃ n, fuel = n + 1 := ⟨fuel - 1, by omega⟩
    exact ⟨h, by simp [Heap.mergeLoop], by simpa using hl⟩
  | case2 as =>
    intro fuel h X hfuel hl
    obtain ⟨fuel, rfl⟩ : ∃ n, fuel = n + 1 := ⟨fuel - 1, by omega⟩
    exact ⟨h, by simp [Heap.mergeLoop], by simpa using hl⟩
  | case3 a as b bs hle ih =>
    intro fuel h X hfuel hl
    obtain ⟨fuel, rfl⟩ : ∃ n, fuel = n + 1 := ⟨fuel - 1, by omega⟩
    have hlt : nodeLess less b a = false := by simpa using hle
    rw [List.length_cons] at hfuel
    obtain ⟨h', hrun, hl'⟩ := ih fuel h (X ++ [a]) (by omega) (by simpa using hl)
    refine ⟨h', ?_, by simpa using hl'⟩
    rw [← hrun, List.cons_append, List.cons_append, start_cons, List.cons_append, start_cons,
      mergeLoop_succ less hl, hlt]
    rfl
  | case4 a as b bs hle ih =>
    intro fuel h X hfuel hl
    obtain ⟨fuel, rfl⟩ : ∃ n, fuel = n + 1 := ⟨fuel - 1, by omega⟩
    have hlt : nodeLess less b a = true := by simpa using hle
    rw [List.length_cons] at hfuel
    obtain ⟨h₁, hsplice, hl₁⟩ : ∃ h₁, h.listSplice (some a.1) (some b.1)
        (some (start (bs ++ Y) list.tail)) = some h₁ ∧
          IsList h₁ list (X ++ [b] ++ a :: as ++ (bs ++ Y)) :=
      listSplice_isList (S := []) (Y := bs ++ Y) (by simpa using hl)
    obtain ⟨h', hrun, hl'⟩ := ih fuel h₁ (X ++ [b]) (by simp at hfuel ⊢; omega)
      (by simpa using hl₁)
    refine ⟨h', ?_, by simpa using hl'⟩
    rw [← hrun, List.cons_append, List.cons_append, start_cons, List.cons_append, start_cons,
      mergeLoop_succ less hl, hlt, if_pos rfl, hsplice]
    rfl

theorem inplaceMerge_spec (as bs : List (Addr × α)) {m : List (Addr × α)}
    (hl : IsList h list (X ++ as ++ bs ++ Y)) {fuel : Nat} (hfuel : as.length + bs.length < fuel)
    (hm : inplaceMerge (nodeLess less) as bs = some m) :
    ∃ h', h.inplaceMerge fuel less (some (start (as ++ bs ++ Y) list.tail))
        (some (start (bs ++ Y) list.tail)) (some (start Y list.tail)) = some h' ∧
      IsList h' list (X ++ m ++ Y) := by
  unfold inplaceMerge at hm
  split_ifs at hm with hsorted
  obtain rfl := Option.some.inj hm
  rw [Bool.and_eq_true] at hsorted
  have hs : Stretch h (as ++ (bs ++ Y)) list.tail := IsList.stretch (X := X) (by simpa using hl)
  have ha := isSorted_spec less hs.take (by omega : _ < fuel)
  have hb := isSorted_spec less hs.drop.take (by omega : _ < fuel)
  rw [← start_append, ← List.append_assoc, hsorted.1] at ha
  rw [← start_append, hsorted.2] at hb
  obtain ⟨h', hrun, hl'⟩ := mergeLoop_spec less as bs fuel h X hfuel hl
  refine ⟨h', ?_, hl'⟩
  rw [Heap.inplaceMerge, if_pos ⟨by simp, by simp, by simp⟩, ha, hb]
  exact hrun

/-- The inner loop of `list_sort` ends at a run that nothing follows. -/
theorem sortPass_last {l : List (Addr × α)} (hl : Stretch h l list.tail) (hnil : l ≠ [])
    (hrest : (findEndOfRun (nodeLess less) l).2 = []) {fuel : Nat} (hfuel : l.length < fuel)
    (rounds cnt : Nat) :
    Heap.sortPass fuel less list (rounds + 1) h (some (start l list.tail)) cnt =
      some (h, cnt + 1) := by
  have hend := findEndOfRun_spec less hl hnil hfuel
  rw [hrest, start_nil, ← listEnd] at hend
  rw [Heap.sortPass, if_pos (hl.start_ne_end hnil), hend]
  simp

/-- One round of the inner loop of `list_sort`, while there are two runs left. -/
theorem sortPass_succ {l : List (Addr × α)} (hl : Stretch h l list.tail) (hnil : l ≠ [])
    (hrest : (findEndOfRun (nodeLess less) l).2 ≠ []) {fuel : Nat} (hfuel : l.length < fuel)
    (rounds cnt : Nat) :
    Heap.sortPass fuel less list (rounds + 1) h (some (start l list.tail)) cnt =
      (h.inplaceMerge fuel less (some (start l list.tail))
        (some (start (findEndOfRun (nodeLess less) l).2 list.tail))
        (some (start (findEndOfRun (nodeLess less) (findEndOfRun (nodeLess less) l).2).2
          list.tail))).bind fun h =>
        Heap.sortPass fuel less list rounds h
          (some (start (findEndOfRun (nodeLess less) (findEndOfRun (nodeLess less) l).2).2
            list.tail)) (cnt + 1) := by
  have hl' : Stretch h (findEndOfRun (nodeLess less) l).2 list.tail := by
    refine Stretch.drop (s := (findEndOfRun (nodeLess less) l).1) ?_
    rwa [findEndOfRun_append]
  have hend := findEndOfRun_spec less hl hnil hfuel
  have hend' := findEndOfRun_spec less hl' hrest
    ((length_findEndOfRun_lt (nodeLess less) hnil).trans hfuel)
  rw [← listEnd] at hend hend'
  rw [Heap.sortPass, if_pos (hl.start_ne_end hnil), hend]
  simp only [Option.bind_eq_bind, Option.bind_some]
  rw [if_neg (hl'.start_ne_end hrest), hend', Option.bind_some]

/-- **A pass of `list_sort`** over the nodes behind those of `X`. -/
theorem sortPass_run (rest : List (Addr × α)) : ∀ (X : List (Addr × α)) (h : Heap α)
    (cnt rounds fuel : Nat), rest.length < fuel → rest.length < rounds →
      IsList h list (X ++ rest) → ∀ r, sortPass (nodeLess less) rest = some r →
        ∃ h', Heap.sortPass fuel less list rounds h (some (start rest list.tail)) cnt =
            some (h', cnt + r.1) ∧ IsList h' list (X ++ r.2) := by
  fun_induction sortPass (nodeLess less) rest with
  | case1 =>
    intro X h cnt rounds fuel hfuel hrounds hl r hr
    obtain ⟨rounds, rfl⟩ : ∃ n, rounds = n + 1 := ⟨rounds - 1, by omega⟩
    obtain rfl := Option.some.inj hr
    exact ⟨h, by simp [Heap.sortPass, listEnd], hl⟩
  | case2 l hnil run hrest =>
    intro X h cnt rounds fuel hfuel hrounds hl r hr
    obtain ⟨rounds, rfl⟩ : ∃ n, rounds = n + 1 := ⟨rounds - 1, by omega⟩
    obtain rfl := Option.some.inj hr
    have happ : run.1 = l := by
      have happ := findEndOfRun_append (nodeLess less) l
      rwa [show (findEndOfRun (nodeLess less) l).2 = [] from hrest, List.append_nil] at happ
    exact ⟨h, sortPass_last less hl.stretch hnil hrest hfuel rounds cnt, by rwa [happ]⟩
  | case3 l hnil run hrest run' ih =>
    intro X h cnt rounds fuel hfuel hrounds hl r hr
    obtain ⟨rounds, rfl⟩ : ∃ n, rounds = n + 1 := ⟨rounds - 1, by omega⟩
    obtain ⟨merged, hm, hr⟩ := Option.bind_eq_some_iff.mp hr
    obtain ⟨r', hr', rfl⟩ := Option.map_eq_some_iff.mp hr
    have happ' : run'.1 ++ run'.2 = run.2 := findEndOfRun_append _ run.2
    have happ : run.1 ++ run'.1 ++ run'.2 = l := by
      rw [List.append_assoc, happ', findEndOfRun_append _ l]
    have hlen := congrArg List.length happ
    rw [List.length_append, List.length_append] at hlen
    have hpos : 0 < run.1.length :=
      List.length_pos_iff.mpr (findEndOfRun_ne_nil (nodeLess less) l hnil)
    obtain ⟨h₁, hmerge, hl₁⟩ := inplaceMerge_spec less run.1 run'.1 (X := X) (Y := run'.2)
      (by simpa [← happ] using hl) (by omega : _ < fuel) hm
    rw [happ, happ'] at hmerge
    obtain ⟨h', hrun, hl'⟩ := ih (X ++ merged) h₁ (cnt + 1) rounds fuel (by omega) (by omega)
      hl₁ r' hr'
    refine ⟨h', ?_, by simpa using hl'⟩
    rw [sortPass_succ less hl.stretch hnil hrest hfuel, hmerge, Option.bind_some, hrun,
      Nat.add_assoc, Nat.add_comm 1]

theorem IsList.listBegin {nodes : List (Addr × α)} (hl : IsList h list nodes) :
    h.listBegin list = some (some (start nodes list.tail)) := by
  have hj : h.Joined list.head (start nodes list.tail) :=
    Links.Chained.joined (l := [list.head]) hl.chained rfl (head?_start nodes list.tail)
  rw [Heap.listBegin, Heap.readNext,
    deref_of_live (hl.live list.head List.mem_cons_self), Option.map_some, hj.1]

/-- **The passes of `list_sort`.** -/
theorem sortLoop_run (hless : StrictWeak less) {fuel : Nat} (rounds : Nat) :
    ∀ (h : Heap α) (nodes : List (Addr × α)), nodes.length < fuel → IsList h list nodes →
      ∀ nodes', sortLoop (nodeLess less) rounds nodes = some nodes' →
        ∃ h', Heap.sortLoop fuel less list rounds h = some h' ∧ IsList h' list nodes' := by
  induction rounds with
  | zero => exact fun h nodes _ _ nodes' hs => absurd hs (by simp [sortLoop])
  | succ rounds ih =>
    intro h nodes hfuel hl nodes' hs
    obtain ⟨n, nodes₁, hpass, hperm, -⟩ := sortPass_spec (nodeLess_strictWeak hless) nodes
    obtain ⟨h₁, hrun, hl₁⟩ := sortPass_run less nodes [] h 0 fuel fuel hfuel hfuel hl _ hpass
    have hfuel₁ : nodes₁.length < fuel := hperm.length_eq ▸ hfuel
    have hsorted := isSorted_spec less (IsList.stretch (X := []) hl₁) hfuel₁
    rw [Nat.zero_add] at hrun
    rw [sortLoop, hpass, Option.bind_some] at hs
    simp only [Heap.sortLoop, hl.listBegin, hrun, Option.bind_eq_bind, Option.bind_some]
    split_ifs at hs ⊢ with hn hn'
    · exact ih h₁ nodes₁ hfuel₁ hl₁ nodes' hs
    · obtain rfl := Option.some.inj hs
      refine ⟨h₁, ?_, hl₁⟩
      rw [hn'] at hsorted
      rw [hl₁.listBegin, Option.bind_some, listEnd, List.nil_append, hsorted]
      rfl

/-- **`wordcount_sort` on a list in memory.** It ends, no `ASSERT` fails, and the list is again well
formed, with the same nodes in order. Nodes that compare equal keep their order. -/
theorem wordcountSort_isList {less : WordCount → WordCount → Bool} (hless : StrictWeak less)
    {h : Heap WordCount} {wclist : PintosList} {nodes : List (Addr × WordCount)}
    (hl : IsList h wclist nodes) :
    ∃ nodes', nodes'.Perm nodes ∧ Ordered (nodeLess less) nodes' ∧
      (∀ x y, nodeLess less x y = false → nodeLess less y x = false →
        [x, y].Sublist nodes → [x, y].Sublist nodes') ∧
      ∀ fuel, nodes.length < fuel →
        ∃ h', h.wordcountSort fuel less wclist = some h' ∧ IsList h' wclist nodes' := by
  obtain ⟨nodes', hs, hperm, hord⟩ := listSort_spec (nodeLess_strictWeak hless) nodes
  refine ⟨nodes', hperm, hord, ?_, ?_⟩
  · intro x y hxy hyx hsub
    exact (listSort_stable (nodeLess_strictWeak hless) hs).pair (nodeLess_strictWeak hless) hxy hyx
      hsub
  · intro fuel hfuel
    exact sortLoop_run less hless fuel h nodes hfuel hl nodes' (sortLoop_mono hfuel hs)

/-- A list of two nodes, at `2` and `3`, the greater one first. -/
def twoNodes : Heap WordCount where
  prev := fun a => [none, some 3, some 0, some 2].getD a none
  next := fun a => [some 2, none, some 3, some 1].getD a none
  live := fun a => decide (a < 4)
  entry := fun a => [none, none, some ⟨bytes "b", 2⟩, some ⟨bytes "a", 1⟩].getD a none

/-- The two nodes change places. -/
theorem wordcountSort_isList_two :
    IsList twoNodes ⟨0, 1⟩ [(2, ⟨bytes "b", 2⟩), (3, ⟨bytes "a", 1⟩)] ∧
    ∃ nodes', nodes'.Perm [(2, ⟨bytes "b", 2⟩), (3, ⟨bytes "a", 1⟩)] ∧
      Ordered (nodeLess lessCount) nodes' ∧
      (∀ x y, nodeLess lessCount x y = false → nodeLess lessCount y x = false →
        [x, y].Sublist [(2, ⟨bytes "b", 2⟩), (3, ⟨bytes "a", 1⟩)] → [x, y].Sublist nodes') ∧
      ∀ fuel, 2 < fuel →
        ∃ h', twoNodes.wordcountSort fuel lessCount ⟨0, 1⟩ = some h' ∧ IsList h' ⟨0, 1⟩ nodes' := by
  have hl : IsList twoNodes ⟨0, 1⟩ [(2, ⟨bytes "b", 2⟩), (3, ⟨bytes "a", 1⟩)] :=
    ⟨by decide, by decide, rfl, rfl,
      .cons_cons ⟨rfl, rfl⟩ (.cons_cons ⟨rfl, rfl⟩ (.cons_cons ⟨rfl, rfl⟩ (.singleton 1))),
      by simp [twoNodes]⟩
  exact ⟨hl, wordcountSort_isList lessCount_strictWeak hl⟩

end SystemProgramming.Words
