import SystemProgramming.Lib.Insertion
import SystemProgramming.Words.Deque

/-!
# Lists in order

`list_insert_ordered`, `list_unique`, `list_max` and `list_min` of `list.c` on the elements in
memory, and what they do on the sequence of the nodes.

* `listInsertOrdered_isList`, `listUnique_isList`, `listBest_spec`: each function on a well-formed
  list, `list_unique` with a second list for the duplicates.
* `unique_filter`: of the nodes of an ordered list that compare equal, `list_unique` keeps the
  first.
* `listMax_first`, `listMin_first`: the first of the greatest and of the least nodes.
-/

namespace SystemProgramming.Words

open Lib

variable {α : Type}

namespace Heap

/-- The loop of `list_insert_ordered`. -/
def insertOrderedLoop (h : Heap α) (less : α → α → Bool) (list : PintosList) (elem : Ptr) :
    Nat → Ptr → Option Ptr
  | 0, _ => none
  | fuel + 1, e =>
    if e ≠ listEnd list then do
      if ← h.lessList less elem e then return e
      else h.insertOrderedLoop less list elem fuel (← h.listNext e)
    else some e

/-- `list_insert_ordered`. -/
def listInsertOrdered (fuel : Nat) (h : Heap α) (less : α → α → Bool) (list : PintosList)
    (elem : Ptr) : Option (Heap α) :=
  if elem ≠ none then do
    h.listInsert (← h.insertOrderedLoop less list elem fuel (← h.listBegin list)) elem
  else none

/-- `!less (elem, next, aux) && !less (next, elem, aux)`. -/
def sameList (h : Heap α) (less : α → α → Bool) (elem next : Ptr) : Option Bool := do
  if ← h.lessList less elem next then return false
  else return !(← h.lessList less next elem)

/-- `if (duplicates != NULL) list_push_back (duplicates, next)`. -/
def pushDuplicate (h : Heap α) (next : Ptr) : Option PintosList → Option (Heap α)
  | some duplicates => h.listPushBack duplicates next
  | none => some h

/-- The loop of `list_unique`. -/
def uniqueLoop (less : α → α → Bool) (list : PintosList) (duplicates : Option PintosList) :
    Nat → Heap α → Ptr → Option (Heap α)
  | 0, _, _ => none
  | fuel + 1, h, elem => do
    let next ← h.listNext elem
    if next ≠ listEnd list then
      if ← h.sameList less elem next then
        let r ← h.listRemove next
        uniqueLoop less list duplicates fuel (← r.2.pushDuplicate next duplicates) elem
      else uniqueLoop less list duplicates fuel h next
    else some h

/-- `list_unique`. -/
def listUnique (fuel : Nat) (h : Heap α) (less : α → α → Bool) (list : PintosList)
    (duplicates : Option PintosList) : Option (Heap α) := do
  if ← h.listEmpty list then return h
  else uniqueLoop less list duplicates fuel h (← h.listBegin list)

/-- The loop of `list_max`. -/
def bestLoop (h : Heap α) (less : α → α → Bool) (list : PintosList) : Nat → Ptr → Ptr → Option Ptr
  | 0, _, _ => none
  | fuel + 1, e, best =>
    if e ≠ listEnd list then do
      if ← h.lessList less best e then h.bestLoop less list fuel (← h.listNext e) e
      else h.bestLoop less list fuel (← h.listNext e) best
    else some best

/-- The body that `list_max` and `list_min` share. -/
def listBest (fuel : Nat) (h : Heap α) (less : α → α → Bool) (list : PintosList) : Option Ptr := do
  let best ← h.listBegin list
  if best ≠ listEnd list then h.bestLoop less list fuel (← h.listNext best) best
  else return best

/-- `list_max`. -/
def listMax (fuel : Nat) (h : Heap α) (less : α → α → Bool) (list : PintosList) : Option Ptr :=
  h.listBest fuel less list

/-- `list_min`, which asks whether `e` is less than `min`. -/
def listMin (fuel : Nat) (h : Heap α) (less : α → α → Bool) (list : PintosList) : Option Ptr :=
  h.listBest fuel (fun min e => less e min) list

end Heap

/-! ## On sequences -/

section Sequences

variable (less : α → α → Bool)

/-- `list_unique` from a kept element on: what is kept, and the duplicates. -/
def uniqueFrom (x : α) : List α → List α × List α
  | [] => ([x], [])
  | y :: l =>
    if ties less x y = true then ((uniqueFrom x l).1, y :: (uniqueFrom x l).2)
    else (x :: (uniqueFrom y l).1, (uniqueFrom y l).2)

/-- `list_unique`. -/
def unique : List α → List α × List α
  | [] => ([], [])
  | x :: l => uniqueFrom less x l

/-- `list_max`, from the best element so far. -/
def best (x : α) (l : List α) : α := l.foldl (fun m e => if less m e = true then e else m) x

variable {less}

/-- Nothing is lost. -/
theorem uniqueFrom_perm (x : α) (l : List α) :
    ((uniqueFrom less x l).1 ++ (uniqueFrom less x l).2).Perm (x :: l) := by
  fun_induction uniqueFrom less x l with
  | case1 x => rfl
  | case2 x y l ht ih => exact (List.perm_middle.trans (ih.cons y)).trans (.swap ..)
  | case3 x y l ht ih => exact ih.cons x

/-- **Of the elements that compare equal to `z`**, an ordered list keeps the first. -/
theorem uniqueFrom_filter (h : StrictWeak less) (z x : α) (l : List α)
    (ho : Ordered less (x :: l)) :
    (uniqueFrom less x l).1.filter (ties less z) = ((x :: l).filter (ties less z)).take 1 ∧
      (uniqueFrom less x l).2.filter (ties less z) = ((x :: l).filter (ties less z)).drop 1 := by
  fun_induction uniqueFrom less x l with
  | case1 x =>
    by_cases hz : ties less z x = true
    · rw [List.filter_cons_of_pos hz]
      exact ⟨rfl, rfl⟩
    · rw [List.filter_cons_of_neg hz]
      exact ⟨rfl, rfl⟩
  | case2 x y l ht ih =>
    obtain ⟨hx, hrest⟩ := List.pairwise_cons.mp ho
    have ho' : Ordered less (x :: l) := List.pairwise_cons.mpr
      ⟨fun b hb => hx b (List.mem_cons_of_mem y hb), (List.pairwise_cons.mp hrest).2⟩
    obtain ⟨ih1, ih2⟩ := ih ho'
    have hxy := h.ties_congr ht z
    by_cases hz : ties less z x = true
    · have hzy : ties less z y = true := hxy ▸ hz
      rw [List.filter_cons_of_pos hz] at ih1 ih2 ⊢
      rw [List.filter_cons_of_pos hzy, List.filter_cons_of_pos hzy]
      exact ⟨ih1, by rw [ih2]; rfl⟩
    · have hzy : ¬ ties less z y = true := hxy ▸ hz
      rw [List.filter_cons_of_neg hz] at ih1 ih2 ⊢
      rw [List.filter_cons_of_neg hzy, List.filter_cons_of_neg hzy]
      exact ⟨ih1, ih2⟩
  | case3 x y l ht ih =>
    obtain ⟨hx, hrest⟩ := List.pairwise_cons.mp ho
    obtain ⟨ih1, ih2⟩ := ih hrest
    have hxy : less x y = true := by
      have hyx := hx y List.mem_cons_self
      by_contra hno
      exact ht (by simp [ties, hyx, Bool.eq_false_iff.mpr hno])
    by_cases hz : ties less z x = true
    · rw [filter_ties_eq_nil h hrest hxy hz] at ih1 ih2
      rw [List.filter_cons_of_pos hz, List.filter_cons_of_pos hz,
        filter_ties_eq_nil h hrest hxy hz, ih1]
      exact ⟨rfl, ih2⟩
    · rw [List.filter_cons_of_neg hz, List.filter_cons_of_neg hz]
      exact ⟨ih1, ih2⟩

theorem unique_perm (l : List α) : ((unique less l).1 ++ (unique less l).2).Perm l := by
  cases l with
  | nil => rfl
  | cons x l => exact uniqueFrom_perm x l

theorem unique_filter (h : StrictWeak less) {l : List α} (ho : Ordered less l) (z : α) :
    (unique less l).1.filter (ties less z) = (l.filter (ties less z)).take 1 ∧
      (unique less l).2.filter (ties less z) = (l.filter (ties less z)).drop 1 := by
  cases l with
  | nil => exact ⟨rfl, rfl⟩
  | cons x l => exact uniqueFrom_filter h z x l ho

theorem uniqueFrom_sublist (x : α) (l : List α) :
    (uniqueFrom less x l).1.Sublist (x :: l) ∧ (uniqueFrom less x l).2.Sublist l := by
  fun_induction uniqueFrom less x l with
  | case1 x => exact ⟨.refl _, .refl _⟩
  | case2 x y l ht ih =>
    exact ⟨ih.1.trans ((List.sublist_cons_self y l).cons_cons x), ih.2.cons_cons y⟩
  | case3 x y l ht ih => exact ⟨ih.1.cons_cons x, ih.2.cons y⟩

theorem unique_sublist (l : List α) :
    (unique less l).1.Sublist l ∧ (unique less l).2.Sublist l := by
  cases l with
  | nil => exact ⟨.refl _, .refl _⟩
  | cons x l =>
    have hsub : (uniqueFrom less x l).1.Sublist (x :: l) ∧ (uniqueFrom less x l).2.Sublist l :=
      uniqueFrom_sublist x l
    exact ⟨hsub.1, hsub.2.cons x⟩

/-- What is kept of an ordered list is ascending. -/
theorem unique_ascending (h : StrictWeak less) {l : List α} (ho : Ordered less l) :
    (unique less l).1.Pairwise fun a b => less a b = true := by
  refine ascending_of_filter h (ho.sublist (unique_sublist l).1) fun z => ?_
  rw [(unique_filter h ho z).1, List.length_take]
  exact Nat.min_le_left _ _

/-- **The first of the best elements**: nothing is better, and what stands before it is worse. -/
theorem best_spec (h : StrictWeak less) (x : α) (l : List α) :
    ∃ pre post, x :: l = pre ++ best less x l :: post ∧
      (∀ a ∈ pre, less a (best less x l) = true) ∧
      ∀ a ∈ x :: l, less (best less x l) a = false := by
  induction l generalizing x with
  | nil =>
    refine ⟨[], [], rfl, fun a ha => absurd ha List.not_mem_nil, fun a ha => ?_⟩
    rw [List.mem_singleton.mp ha]
    exact h.irrefl x
  | cons y l ih =>
    by_cases hxy : less x y = true
    · have hbest : best less x (y :: l) = best less y l := by
        rw [best, List.foldl_cons, if_pos hxy]
        rfl
      rw [hbest]
      obtain ⟨pre, post, heq, hpre, hall⟩ := ih y
      have hxm : less x (best less y l) = true := by
        by_contra hno
        have := h.trans y _ x (hall y List.mem_cons_self) (Bool.eq_false_iff.mpr hno)
        exact absurd hxy (by simp [this])
      refine ⟨x :: pre, post, by rw [heq]; rfl, ?_, ?_⟩
      · intro a ha
        rcases List.mem_cons.mp ha with rfl | ha
        · exact hxm
        · exact hpre a ha
      · intro a ha
        rcases List.mem_cons.mp ha with rfl | ha
        · exact h.asymm a _ hxm
        · exact hall a ha
    · have hyx : less x y = false := Bool.eq_false_iff.mpr hxy
      have hbest : best less x (y :: l) = best less x l := by
        rw [best, List.foldl_cons, if_neg hxy]
        rfl
      rw [hbest]
      obtain ⟨pre, post, heq, hpre, hall⟩ := ih x
      cases pre with
      | nil =>
        obtain ⟨hm, -⟩ := List.cons.inj heq
        refine ⟨[], y :: l, by rw [← hm]; rfl, fun a ha => absurd ha List.not_mem_nil, ?_⟩
        intro a ha
        rcases List.mem_cons.mp ha with rfl | ha
        · exact hall a List.mem_cons_self
        · rcases List.mem_cons.mp ha with rfl | ha
          · rw [← hm]
            exact hyx
          · exact hall a (List.mem_cons_of_mem x ha)
      | cons p pre =>
        obtain ⟨rfl, hl⟩ := List.cons.inj heq
        have hym : less y (best less x l) = true := by
          by_contra hno
          have := h.trans _ y x (Bool.eq_false_iff.mpr hno) hyx
          exact absurd (hpre x List.mem_cons_self) (by simp [this])
        refine ⟨x :: y :: pre, post, congrArg (fun l => x :: y :: l) hl, ?_, ?_⟩
        · intro a ha
          rcases List.mem_cons.mp ha with rfl | ha
          · exact hpre a List.mem_cons_self
          · rcases List.mem_cons.mp ha with rfl | ha
            · exact hym
            · exact hpre a (List.mem_cons_of_mem x ha)
        · intro a ha
          rcases List.mem_cons.mp ha with rfl | ha
          · exact hall a List.mem_cons_self
          · rcases List.mem_cons.mp ha with rfl | ha
            · exact h.asymm a _ hym
            · exact hall a (List.mem_cons_of_mem x ha)

end Sequences

/-! ## In memory -/

variable {h h' : Heap α} {list dups : PintosList} {nodes s X D : List (Addr × α)}
  {x y e : Addr × α} {b : Addr} (less : α → α → Bool)

/-- The comparison with an element outside the list. -/
theorem lessList_of_entry (he : h.live e.1 = true) (hentry : h.entry e.1 = some e.2)
    (hx : h.live x.1 = true) (hxentry : h.entry x.1 = some x.2) :
    h.lessList less (some e.1) (some x.1) = some (nodeLess less e x) := by
  rw [Heap.lessList, Heap.listEntry, Heap.listEntry, deref_of_live he, deref_of_live hx,
    Option.bind_some, Option.bind_some, hentry, hxentry]
  rfl

/-- The loop of `list_insert_ordered` stops at the first node that is greater. -/
theorem insertOrderedLoop_spec (he : h.live e.1 = true) (hentry : h.entry e.1 = some e.2)
    (hr : Stretch h s list.tail) : ∀ fuel, s.length < fuel →
    ∃ A B, s = A ++ B ∧ insertOrdered (nodeLess less) e s = A ++ e :: B ∧
      h.insertOrderedLoop less list (some e.1) fuel (some (start s list.tail)) =
        some (some (start B list.tail)) := by
  induction s with
  | nil =>
    intro fuel hfuel
    obtain ⟨fuel, rfl⟩ : ∃ n, fuel = n + 1 := ⟨fuel - 1, by omega⟩
    refine ⟨[], [], rfl, rfl, ?_⟩
    rw [Heap.insertOrderedLoop, if_neg (by simp [listEnd])]
  | cons x s ih =>
    intro fuel hfuel
    obtain ⟨fuel, rfl⟩ : ∃ n, fuel = n + 1 := ⟨fuel - 1, by omega⟩
    rw [List.length_cons] at hfuel
    have hless := lessList_of_entry less he hentry (hr.live x.1 (by simp))
      (hr.entry x List.mem_cons_self)
    rw [insertOrdered_cons, Heap.insertOrderedLoop,
      if_pos (hr.start_ne_end (List.cons_ne_nil x s)), start_cons, hless, hr.listNext]
    cases hlt : nodeLess less e x with
    | true => exact ⟨[], x :: s, rfl, rfl, rfl⟩
    | false =>
      obtain ⟨A, B, rfl, hins, hrun⟩ := ih hr.tail fuel (by omega)
      exact ⟨x :: A, B, rfl, by rw [if_neg (by simp), hins]; rfl, hrun⟩

/-- **`list_insert_ordered`** puts an element before the first one that is greater. -/
theorem listInsertOrdered_isList (hl : IsList h list nodes) (he : h.live e.1 = true)
    (hentry : h.entry e.1 = some e.2) (hnew : e.1 ∉ list.elems nodes) {fuel : Nat}
    (hfuel : nodes.length < fuel) :
    ∃ h', h.listInsertOrdered fuel less list (some e.1) = some h' ∧
      IsList h' list (insertOrdered (nodeLess less) e nodes) ∧
      SameBut (list.elems (e :: nodes)) h h' := by
  obtain ⟨A, B, rfl, hins, hrun⟩ := insertOrderedLoop_spec less he hentry
    (IsList.stretch (X := []) hl) fuel hfuel
  obtain ⟨h', hinsert, hl', -⟩ := listInsert_isList hl he hentry hnew
  refine ⟨h', ?_, hins ▸ hl', ?_⟩
  · rw [Heap.listInsertOrdered, if_pos (by simp), hl.listBegin]
    simp only [Option.bind_eq_bind, Option.bind_some, hrun]
    exact hinsert
  · refine (listInsert_sameBut hl he hnew hinsert).mono fun a ha => ?_
    exact (elems_perm list List.perm_middle).mem_iff.mp ha

/-- `list_unique` compares in both directions. -/
theorem Stretch.sameList (hr : Stretch h s b) (hx : x ∈ s) (hy : y ∈ s) :
    h.sameList less (some x.1) (some y.1) = some (ties (nodeLess less) x y) := by
  rw [Heap.sameList, hr.lessList less hx hy, hr.lessList less hy hx]
  cases hxy : nodeLess less x y <;> simp [ties, hxy]

/-- The list of the duplicates, if there is one, stands apart from the list. -/
def Duplicates (h : Heap α) (list : PintosList) (nodes D : List (Addr × α)) :
    Option PintosList → Prop
  | none => True
  | some dups => IsList h dups D ∧ ∀ a ∈ list.elems nodes, a ∉ dups.elems D

/-- A node that compares equal to the one before it: the writes of a round of `list_unique`. -/
theorem removeDuplicate_isList (duplicates : Option PintosList)
    (hl : IsList h list (X ++ x :: y :: s))
    (hd : Duplicates h list (X ++ x :: y :: s) D duplicates) :
    ∃ r h', h.listRemove (some y.1) = some r ∧
      r.2.pushDuplicate (some y.1) duplicates = some h' ∧
      IsList h' list (X ++ x :: s) ∧ Duplicates h' list (X ++ x :: s) (D ++ [y]) duplicates ∧
      h'.live = h.live ∧ h'.entry = h.entry := by
  have hsplit : X ++ x :: y :: s = (X ++ [x]) ++ y :: s := by simp
  have hy : y.1 ∈ list.elems (X ++ x :: y :: s) := by
    rw [hsplit]
    exact (mem_elems_cons list (X ++ [x]) s y).mpr (.inl rfl)
  have hyn : y.1 ∉ list.elems (X ++ x :: s) := fun hmem => by
    have hnd := (elems_perm list (hsplit ▸ List.perm_middle :
      (X ++ x :: y :: s).Perm (y :: (X ++ [x] ++ s)))).nodup_iff.mp hl.nodup
    have hnd' : (y.1 :: list.elems (X ++ [x] ++ s)).Nodup :=
      List.Perm.nodup_iff (.swap ..) |>.mp hnd
    exact (List.nodup_cons.mp hnd').1 (by simpa using hmem)
  obtain ⟨h₁, hremove, hl₁, hs₁⟩ := listRemove_isList (hsplit ▸ hl)
  have hl₁' : IsList h₁ list (X ++ x :: s) := by simpa using hl₁
  rw [← hsplit] at hs₁
  have hyentry : h.entry y.1 = some y.2 := hl.entry y (by simp)
  cases duplicates with
  | none => exact ⟨_, h₁, hremove, rfl, hl₁', trivial, hs₁.live, hs₁.entry⟩
  | some dups =>
    obtain ⟨hdl, hdisj⟩ := hd
    have hdl₁ : IsList h₁ dups D := hdl.frame hs₁ fun a ha hmem => hdisj a hmem ha
    have hlive : h₁.live y.1 = true := by
      rw [hs₁.live]
      exact hl.live _ hy
    obtain ⟨h₂, hpush, hdl₂, hs₂⟩ := listPushBack_isList hdl₁ hlive
      (by rw [hs₁.entry]; exact hyentry) (hdisj _ hy)
    have hmem : ∀ a, a ∈ dups.elems (D ++ [y]) ↔ a = y.1 ∨ a ∈ dups.elems D := fun a => by
      rw [mem_elems_cons dups D [] y, List.append_nil]
    have hdisj' : ∀ a ∈ list.elems (X ++ x :: s), a ∉ dups.elems (D ++ [y]) := by
      intro a ha hdup
      rcases (hmem a).mp hdup with rfl | hdup
      · exact hyn ha
      · refine hdisj a ?_ hdup
        rw [hsplit]
        exact (mem_elems_cons list (X ++ [x]) s y).mpr (.inr (by simpa using ha))
    exact ⟨_, h₂, hremove, hpush, hl₁'.frame hs₂ hdisj', ⟨hdl₂, hdisj'⟩,
      hs₂.live.trans hs₁.live, hs₂.entry.trans hs₁.entry⟩

/-- **The loop of `list_unique`** from a kept node on. -/
theorem uniqueLoop_spec (duplicates : Option PintosList) (x : Addr × α) (s : List (Addr × α)) :
    ∀ (fuel : Nat) (h : Heap α) (X D : List (Addr × α)), s.length < fuel →
      IsList h list (X ++ x :: s) → Duplicates h list (X ++ x :: s) D duplicates →
      ∃ h', Heap.uniqueLoop less list duplicates fuel h (some x.1) = some h' ∧
        IsList h' list (X ++ (uniqueFrom (nodeLess less) x s).1) ∧
        Duplicates h' list (X ++ (uniqueFrom (nodeLess less) x s).1)
          (D ++ (uniqueFrom (nodeLess less) x s).2) duplicates ∧
        h'.live = h.live ∧ h'.entry = h.entry := by
  fun_induction uniqueFrom (nodeLess less) x s with
  | case1 x =>
    intro fuel h X D hfuel hl hd
    obtain ⟨fuel, rfl⟩ : ∃ n, fuel = n + 1 := ⟨fuel - 1, by omega⟩
    have hr : Stretch h [x] list.tail := hl.stretch
    refine ⟨h, ?_, hl, by rwa [List.append_nil], rfl, rfl⟩
    rw [Heap.uniqueLoop, hr.listNext]
    simp [listEnd]
  | case2 x y s ht ih =>
    intro fuel h X D hfuel hl hd
    obtain ⟨fuel, rfl⟩ : ∃ n, fuel = n + 1 := ⟨fuel - 1, by omega⟩
    rw [List.length_cons] at hfuel
    have hr : Stretch h (x :: y :: s) list.tail := hl.stretch
    have hsame := hr.sameList less (x := x) (y := y) (by simp) (by simp)
    obtain ⟨r, h₁, hremove, hpush, hl₁, hd₁, hlive, hentry⟩ :=
      removeDuplicate_isList duplicates hl hd
    obtain ⟨h', hrun, hl', hd', hlive', hentry'⟩ := ih fuel h₁ X (D ++ [y]) (by omega) hl₁ hd₁
    refine ⟨h', ?_, hl', by simpa using hd', hlive'.trans hlive, hentry'.trans hentry⟩
    have hne := hr.tail.start_ne_end (List.cons_ne_nil y s)
    rw [start_cons] at hne
    rw [Heap.uniqueLoop, hr.listNext, start_cons]
    simp only [Option.bind_eq_bind, Option.bind_some, if_pos hne, hsame, ht, if_true, hremove,
      hpush]
    exact hrun
  | case3 x y s ht ih =>
    intro fuel h X D hfuel hl hd
    obtain ⟨fuel, rfl⟩ : ∃ n, fuel = n + 1 := ⟨fuel - 1, by omega⟩
    rw [List.length_cons] at hfuel
    have hr : Stretch h (x :: y :: s) list.tail := hl.stretch
    have hsame := hr.sameList less (x := x) (y := y) (by simp) (by simp)
    obtain ⟨h', hrun, hl', hd', hlive', hentry'⟩ := ih fuel h (X ++ [x]) D (by omega)
      (by simpa using hl) (by simpa using hd)
    refine ⟨h', ?_, by simpa using hl', by simpa using hd', hlive', hentry'⟩
    have hne := hr.tail.start_ne_end (List.cons_ne_nil y s)
    rw [start_cons] at hne
    rw [Heap.uniqueLoop, hr.listNext, start_cons]
    simp only [Option.bind_eq_bind, Option.bind_some, if_pos hne, hsame]
    rw [Bool.eq_false_iff.mpr ht]
    exact hrun

/-- **`list_unique`** leaves the kept nodes in the list, and appends the others to the list of the
duplicates. -/
theorem listUnique_isList (duplicates : Option PintosList) (hl : IsList h list nodes)
    (hd : Duplicates h list nodes D duplicates) {fuel : Nat} (hfuel : nodes.length < fuel) :
    ∃ h', h.listUnique fuel less list duplicates = some h' ∧
      IsList h' list (unique (nodeLess less) nodes).1 ∧
      Duplicates h' list (unique (nodeLess less) nodes).1
        (D ++ (unique (nodeLess less) nodes).2) duplicates ∧
      h'.live = h.live ∧ h'.entry = h.entry := by
  rw [Heap.listUnique, listEmpty_spec hl]
  cases nodes with
  | nil => exact ⟨h, rfl, hl, by simpa [unique] using hd, rfl, rfl⟩
  | cons x s =>
    rw [List.length_cons] at hfuel
    obtain ⟨h', hrun, hl', hd', hlive, hentry⟩ :=
      uniqueLoop_spec less duplicates x s fuel h [] D (by omega) hl hd
    refine ⟨h', ?_, hl', hd', hlive, hentry⟩
    simp only [Option.bind_eq_bind, Option.bind_some, hl.listBegin]
    exact hrun

/-- The loop of `list_max`. -/
theorem bestLoop_spec (x : Addr × α) (s : List (Addr × α)) : ∀ fuel, s.length < fuel →
    Stretch h s list.tail → h.live x.1 = true → h.entry x.1 = some x.2 →
    h.bestLoop less list fuel (some (start s list.tail)) (some x.1) =
      some (some (best (nodeLess less) x s).1) := by
  induction s generalizing x with
  | nil =>
    intro fuel hfuel hr hx hxentry
    obtain ⟨fuel, rfl⟩ : ∃ n, fuel = n + 1 := ⟨fuel - 1, by omega⟩
    rw [Heap.bestLoop, if_neg (by simp [listEnd])]
    rfl
  | cons y s ih =>
    intro fuel hfuel hr hx hxentry
    obtain ⟨fuel, rfl⟩ : ∃ n, fuel = n + 1 := ⟨fuel - 1, by omega⟩
    rw [List.length_cons] at hfuel
    have hy := hr.live y.1 (by simp)
    have hyentry := hr.entry y List.mem_cons_self
    have hless := lessList_of_entry less hx hxentry hy hyentry
    rw [Heap.bestLoop, if_pos (hr.start_ne_end (List.cons_ne_nil y s)), start_cons, hless,
      hr.listNext, best, List.foldl_cons]
    cases hlt : nodeLess less x y with
    | true => exact ih y fuel (by omega) hr.tail hy hyentry
    | false => exact ih x fuel (by omega) hr.tail hx hxentry

/-- **`list_max` and `list_min`** find the best node, or the tail of an empty list. -/
theorem listBest_spec (hl : IsList h list nodes) {fuel : Nat} (hfuel : nodes.length < fuel) :
    h.listBest fuel less list = some (some (match nodes with
      | [] => list.tail
      | x :: s => (best (nodeLess less) x s).1)) := by
  have hr : Stretch h nodes list.tail := IsList.stretch (X := []) hl
  rw [Heap.listBest, hl.listBegin]
  cases nodes with
  | nil => simp [listEnd]
  | cons x s =>
    rw [List.length_cons] at hfuel
    have hne := hr.start_ne_end (List.cons_ne_nil x s)
    rw [start_cons] at hne
    simp only [Option.bind_eq_bind, Option.bind_some, start_cons, if_pos hne, hr.listNext]
    exact bestLoop_spec less x s fuel (by omega) hr.tail (hr.live x.1 (by simp))
      (hr.entry x List.mem_cons_self)

/-- **`list_max`** finds the first of the greatest nodes. -/
theorem listMax_first {less : α → α → Bool} (hless : StrictWeak less)
    (hl : IsList h list (x :: s)) {fuel : Nat} (hfuel : s.length + 1 < fuel) :
    ∃ pre m post, x :: s = pre ++ m :: post ∧ h.listMax fuel less list = some (some m.1) ∧
      (∀ a ∈ pre, nodeLess less a m = true) ∧ ∀ a ∈ x :: s, nodeLess less m a = false := by
  obtain ⟨pre, post, heq, hpre, hall⟩ := best_spec (nodeLess_strictWeak hless) x s
  exact ⟨pre, _, post, heq, listBest_spec less hl hfuel, hpre, hall⟩

/-- **`list_min`** finds the first of the least nodes. -/
theorem listMin_first {less : α → α → Bool} (hless : StrictWeak less)
    (hl : IsList h list (x :: s)) {fuel : Nat} (hfuel : s.length + 1 < fuel) :
    ∃ pre m post, x :: s = pre ++ m :: post ∧ h.listMin fuel less list = some (some m.1) ∧
      (∀ a ∈ pre, nodeLess less m a = true) ∧ ∀ a ∈ x :: s, nodeLess less a m = false := by
  obtain ⟨pre, post, heq, hpre, hall⟩ := best_spec (nodeLess_strictWeak hless.flip) x s
  exact ⟨pre, _, post, heq, listBest_spec _ hl hfuel, hpre, hall⟩

end SystemProgramming.Words
