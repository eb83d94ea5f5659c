import SystemProgramming.Words.InPlaceSort

/-!
# Both ends of a list

The operations of `list.c` on the front and the back of a list, `list_remove`, `list_size` and
`list_reverse`, on the elements in memory. The loops run on fuel, as those of `list_sort` do.

* `listRemove_isList`, `listReverse_isList` and the others: each operation does on a well-formed
  list what it does on the sequence of its nodes, and `SameBut` says what it leaves alone.
-/

namespace SystemProgramming.Words

open Lib

variable {α : Type}

namespace Heap

/-- `list_empty`. -/
def listEmpty (h : Heap α) (list : PintosList) : Option Bool := do
  return (← h.listBegin list) = listEnd list

/-- `list_front`. -/
def listFront (h : Heap α) (list : PintosList) : Option Ptr := do
  if ← h.listEmpty list then none else h.readNext (some list.head)

/-- `list_back`. -/
def listBack (h : Heap α) (list : PintosList) : Option Ptr := do
  if ← h.listEmpty list then none else h.readPrev (some list.tail)

/-- `list_remove`: the element that followed, and the memory. -/
def listRemove (h : Heap α) (elem : Ptr) : Option (Ptr × Heap α) :=
  if h.isInterior elem then do
    let h ← h.setNext (← h.readPrev elem) (← h.readNext elem)
    let h ← h.setPrev (← h.readNext elem) (← h.readPrev elem)
    return (← h.readNext elem, h)
  else none

/-- `list_pop_front`. -/
def listPopFront (h : Heap α) (list : PintosList) : Option (Ptr × Heap α) := do
  let front ← h.listFront list
  let r ← h.listRemove front
  return (front, r.2)

/-- `list_pop_back`. -/
def listPopBack (h : Heap α) (list : PintosList) : Option (Ptr × Heap α) := do
  let back ← h.listBack list
  let r ← h.listRemove back
  return (back, r.2)

/-- `list_push_front`. -/
def listPushFront (h : Heap α) (list : PintosList) (elem : Ptr) : Option (Heap α) := do
  h.listInsert (← h.listBegin list) elem

/-- The loop of `list_size`. -/
def sizeLoop (h : Heap α) (list : PintosList) : Nat → Ptr → Nat → Option Nat
  | 0, _, _ => none
  | fuel + 1, e, cnt =>
    if e ≠ listEnd list then do h.sizeLoop list fuel (← h.listNext e) (cnt + 1) else some cnt

/-- `list_size`. -/
def listSize (fuel : Nat) (h : Heap α) (list : PintosList) : Option Nat := do
  h.sizeLoop list fuel (← h.listBegin list) 0

/-- `swap (&e->prev, &e->next)`. -/
def swapLinks (h : Heap α) (e : Ptr) : Option (Heap α) := do
  let prev ← h.readPrev e
  let next ← h.readNext e
  let h ← h.setPrev e next
  h.setNext e prev

/-- The loop of `list_reverse`. -/
def reverseLoop (list : PintosList) : Nat → Heap α → Ptr → Option (Heap α)
  | 0, _, _ => none
  | fuel + 1, h, e =>
    if e ≠ listEnd list then do
      let h ← h.swapLinks e
      reverseLoop list fuel h (← h.readPrev e)
    else some h

/-- `swap (&list->head.next, &list->tail.prev)`. -/
def swapEnds (h : Heap α) (list : PintosList) : Option (Heap α) := do
  let next ← h.readNext (some list.head)
  let prev ← h.readPrev (some list.tail)
  let h ← h.setNext (some list.head) prev
  h.setPrev (some list.tail) next

/-- `swap (&list->head.next->prev, &list->tail.prev->next)`. -/
def swapNeighbours (h : Heap α) (list : PintosList) : Option (Heap α) := do
  let first ← h.readNext (some list.head)
  let last ← h.readPrev (some list.tail)
  let prev ← h.readPrev first
  let next ← h.readNext last
  let h ← h.setPrev first next
  h.setNext last prev

/-- `list_reverse`. -/
def listReverse (fuel : Nat) (h : Heap α) (list : PintosList) : Option (Heap α) := do
  if ← h.listEmpty list then return h
  else
    let h ← reverseLoop list fuel h (← h.listBegin list)
    let h ← h.swapEnds list
    h.swapNeighbours list

end Heap

/-! ## What stays -/

/-- Only the links of some elements have changed. -/
structure SameBut (as : List Addr) (h h' : Heap α) : Prop where
  live : h'.live = h.live
  entry : h'.entry = h.entry
  links : ∀ a, a ∉ as → h'.prev a = h.prev a ∧ h'.next a = h.next a

variable {h h' : Heap α} {list list' : PintosList} {nodes nodes' s X Y : List (Addr × α)}
  {x e : Addr × α} {a b q r : Addr} {as bs : List Addr}

theorem SameBut.refl (as : List Addr) (h : Heap α) : SameBut as h h :=
  ⟨rfl, rfl, fun _ _ => ⟨rfl, rfl⟩⟩

theorem SameBut.trans {h'' : Heap α} (hs : SameBut as h h') (hs' : SameBut as h' h'') :
    SameBut as h h'' :=
  ⟨hs'.live.trans hs.live, hs'.entry.trans hs.entry, fun a ha =>
    ⟨(hs'.links a ha).1.trans (hs.links a ha).1, (hs'.links a ha).2.trans (hs.links a ha).2⟩⟩

theorem SameBut.mono (hs : SameBut as h h') (hsub : ∀ a ∈ as, a ∈ bs) : SameBut bs h h' :=
  ⟨hs.live, hs.entry, fun a ha => hs.links a fun h => ha (hsub a h)⟩

/-- A list that has none of the elements stays as it is. -/
theorem IsList.frame (hl : IsList h list nodes) (hs : SameBut as h h')
    (hd : ∀ a ∈ list.elems nodes, a ∉ as) : IsList h' list nodes := by
  refine ⟨hl.nodup, fun a ha => ?_, ?_, ?_, ?_, fun x hx => ?_⟩
  · rw [hs.live]
    exact hl.live a ha
  · rw [(hs.links _ (hd _ (by simp [PintosList.elems]))).1]
    exact hl.head_prev
  · rw [(hs.links _ (hd _ (by simp [PintosList.elems]))).2]
    exact hl.tail_next
  · exact hl.chained.congr fun a ha => hs.links a (hd a ha)
  · rw [hs.entry]
    exact hl.entry x hx

theorem Stretch.frame (hr : Stretch h s b) (hs : SameBut as h h')
    (hd : ∀ a ∈ s.map Prod.fst ++ [b], a ∉ as) : Stretch h' s b := by
  refine ⟨hr.nodup, fun a ha => ?_, ?_, fun x hx => ?_⟩
  · rw [hs.live]
    exact hr.live a ha
  · exact hr.chained.congr fun a ha => hs.links a (hd a ha)
  · rw [hs.entry]
    exact hr.entry x hx

theorem sameBut_join (k : Links Addr) (hk : SameBut as h (h.relink k)) (ha : a ∈ as)
    (hb : b ∈ as) : SameBut as h (h.relink (k.join a b)) := by
  refine ⟨rfl, rfl, fun c hc => ?_⟩
  have hca : c ≠ a := fun h => hc (h ▸ ha)
  have hcb : c ≠ b := fun h => hc (h ▸ hb)
  rw [toLinks_relink, Links.prev_join_of_ne hcb, Links.next_join_of_ne hca]
  exact hk.links c hc

/-! ## Inserting and removing -/

/-- Where two parts of a list meet. -/
theorem IsList.gap (hl : IsList h list (X ++ Y)) :
    ∃ r, r ∈ (list.head :: X.map Prod.fst).getLast? ∧ r ∈ list.elems (X ++ Y) ∧
      start Y list.tail ∈ list.elems (X ++ Y) ∧ h.Joined r (start Y list.tail) := by
  obtain ⟨r, hr⟩ := exists_getLast? list.head (X.map Prod.fst)
  have hq := head?_start Y list.tail
  have hch := hl.chained
  rw [elems_append] at hch ⊢
  exact ⟨r, hr, List.mem_append_left _ (List.mem_of_getLast? hr),
    List.mem_append_right _ (List.mem_of_head? hq), hch.joined hr hq⟩

theorem eq_of_mem_getLast? {r : Addr} (hr : r ∈ (list.head :: (X ++ [x]).map Prod.fst).getLast?) :
    r = x.1 := by
  rw [List.map_append, ← List.cons_append, show [x].map Prod.fst = [x.1] from rfl,
    List.getLast?_concat] at hr
  exact (Option.some.inj hr).symm

theorem mem_elems_cons (list : PintosList) (X Y : List (Addr × α)) (e : Addr × α) {a : Addr} :
    a ∈ list.elems (X ++ e :: Y) ↔ a = e.1 ∨ a ∈ list.elems (X ++ Y) := by
  simp only [PintosList.elems, List.map_append, List.map_cons, List.mem_append, List.mem_cons]
  tauto

/-- `list_insert` changes the links of the list and of the new element. -/
theorem listInsert_sameBut (hl : IsList h list (X ++ Y)) (he : h.live e.1 = true)
    (hnew : e.1 ∉ list.elems (X ++ Y))
    (hrun : h.listInsert (some (start Y list.tail)) (some e.1) = some h') :
    SameBut (list.elems (X ++ e :: Y)) h h' := by
  obtain ⟨r, -, hr, hq, hj⟩ := hl.gap
  have hmem := fun {a} => mem_elems_cons list X Y e (a := a)
  rw [listInsert_eq (hl.live r hr) he (hl.live _ hq) hj (fun heq => hnew (heq ▸ hr))
    fun heq => hnew (heq ▸ hq)] at hrun
  obtain rfl := Option.some.inj hrun
  exact sameBut_join _ (sameBut_join _ (.refl _ _) (hmem.mpr (.inr hr)) (hmem.mpr (.inl rfl)))
    (hmem.mpr (.inl rfl)) (hmem.mpr (.inr hq))

/-- The writes of `list_remove`. -/
theorem listRemove_eq {r e q : Addr} (hr : h.live r = true) (he : h.live e = true)
    (hq : h.live q = true) (hre : h.Joined r e) (heq : h.Joined e q) (hner : e ≠ r) (hneq : e ≠ q) :
    h.listRemove (some e) = some (some q, h.relink (h.toLinks.join r q)) := by
  have hnext : Function.update h.next r (some q) e = some q := by
    rw [Function.update_of_ne hner, heq.1]
  have hprev : Function.update h.prev q (some r) e = some r := by
    rw [Function.update_of_ne hneq, hre.2]
  unfold Heap.listRemove
  rw [isInterior_of_joined he hre heq]
  simp only [if_true, Option.bind_eq_bind, Option.bind_some, readPrev_of_live, readNext_of_live,
    setPrev_of_live, setNext_of_live, live_relink, toLinks_relink, hr, he, hq, hre.2, heq.1, hnext,
    Links.join]
  rfl

/-- **`list_remove`** takes a node out of the list, and finds the one after it. -/
theorem listRemove_isList (hl : IsList h list (X ++ x :: Y)) :
    ∃ h', h.listRemove (some x.1) = some (some (start Y list.tail), h') ∧
      IsList h' list (X ++ Y) ∧ SameBut (list.elems (X ++ x :: Y)) h h' := by
  obtain ⟨r, hrlast, hr, hx, hrx⟩ := hl.gap
  have hl' : IsList h list (X ++ [x] ++ Y) := by simpa using hl
  obtain ⟨x', hxlast, -, hq, hxq⟩ := hl'.gap
  obtain rfl := eq_of_mem_getLast? hxlast
  rw [start_cons] at hx hrx
  have hsame : ((X ++ [x] ++ Y)) = X ++ x :: Y := by simp
  rw [hsame] at hq
  have hnd : (list.head :: X.map Prod.fst ++ x.1 :: (Y.map Prod.fst ++ [list.tail])).Nodup :=
    elems_append list X (x :: Y) ▸ hl.nodup
  have hch : h.Chained (list.head :: X.map Prod.fst ++ x.1 :: (Y.map Prod.fst ++ [list.tail])) :=
    elems_append list X (x :: Y) ▸ hl.chained
  have hdisj := List.disjoint_of_nodup_append hnd
  have hstart := head?_start Y list.tail
  have hxr : x.1 ≠ r := fun heq =>
    hdisj (List.mem_of_getLast? hrlast) (heq ▸ List.mem_cons_self)
  have hxq' : x.1 ≠ start Y list.tail := fun heq =>
    (List.nodup_cons.mp hnd.of_append_right).1 (heq ▸ List.mem_of_head? hstart)
  have hsub : ∀ {a}, a ∈ list.elems (X ++ Y) → a ∈ list.elems (X ++ x :: Y) := fun ha =>
    (mem_elems_cons list X Y x).mpr (.inr ha)
  have hchained := hch.remove hnd hrlast hstart
  refine ⟨_, listRemove_eq (hl.live r hr) (hl.live _ hx) (hl.live _ hq) hrx hxq hxr hxq',
    ⟨?_, fun a ha => hl.live a (hsub ha), ?_, ?_, ?_, fun y hy => hl.entry y ?_⟩,
    sameBut_join _ (.refl _ _) hr hq⟩
  · rw [elems_append]
    exact hnd.sublist (by simp)
  · have : list.head ≠ start Y list.tail := fun heq =>
      hdisj List.mem_cons_self (heq ▸ List.mem_cons_of_mem _ (List.mem_of_head? hstart))
    rw [toLinks_relink, Links.prev_join_of_ne this]
    exact hl.head_prev
  · have : list.tail ≠ r := fun heq =>
      hdisj (List.mem_of_getLast? hrlast) (heq ▸ by simp)
    rw [toLinks_relink, Links.next_join_of_ne this]
    exact hl.tail_next
  · rw [elems_append]
    exact hchained
  · rcases List.mem_append.mp hy with hy | hy
    · exact List.mem_append_left _ hy
    · exact List.mem_append_right _ (List.mem_cons_of_mem _ hy)

/-! ## Both ends -/

theorem listEmpty_spec (hl : IsList h list nodes) :
    h.listEmpty list = some (decide (nodes = [])) := by
  rw [Heap.listEmpty, hl.listBegin]
  cases nodes with
  | nil => simp [listEnd]
  | cons x nodes =>
    have := (IsList.stretch (X := []) hl).ne
    simp [listEnd, this]

/-- `list_front` fails on the empty list only. -/
theorem listFront_spec (hl : IsList h list nodes) :
    h.listFront list = nodes.head?.map fun x => some x.1 := by
  rw [Heap.listFront, listEmpty_spec hl]
  cases nodes with
  | nil => rfl
  | cons x nodes => exact hl.listBegin

/-- `list_back` fails on the empty list only. -/
theorem listBack_spec (hl : IsList h list nodes) :
    h.listBack list = nodes.getLast?.map fun x => some x.1 := by
  rw [Heap.listBack, listEmpty_spec hl]
  rcases List.eq_nil_or_concat' nodes with rfl | ⟨nodes, x, rfl⟩
  · rfl
  · have hl' : IsList h list (nodes ++ [x] ++ []) := by simpa using hl
    obtain ⟨r, hr, -, ht, hj⟩ := hl'.gap
    obtain rfl := eq_of_mem_getLast? hr
    rw [start_nil] at ht hj
    rw [List.getLast?_concat]
    simp [readPrev_of_live (hl'.live _ ht), hj.2]

/-- **`list_push_front`**. -/
theorem listPushFront_isList (hl : IsList h list nodes) (he : h.live e.1 = true)
    (hentry : h.entry e.1 = some e.2) (hnew : e.1 ∉ list.elems nodes) :
    ∃ h', h.listPushFront list (some e.1) = some h' ∧ IsList h' list (e :: nodes) ∧
      SameBut (list.elems (e :: nodes)) h h' := by
  obtain ⟨h', hrun, hl', -⟩ := listInsert_isList (X := []) hl he hentry hnew
  refine ⟨h', ?_, hl', listInsert_sameBut (X := []) hl he hnew hrun⟩
  rw [Heap.listPushFront, hl.listBegin]
  exact hrun

/-- **`list_push_back`**. -/
theorem listPushBack_isList (hl : IsList h list nodes) (he : h.live e.1 = true)
    (hentry : h.entry e.1 = some e.2) (hnew : e.1 ∉ list.elems nodes) :
    ∃ h', h.listPushBack list (some e.1) = some h' ∧ IsList h' list (nodes ++ [e]) ∧
      SameBut (list.elems (nodes ++ [e])) h h' := by
  have hl' : IsList h list (nodes ++ []) := by simpa using hl
  have hnew' : e.1 ∉ list.elems (nodes ++ []) := by simpa using hnew
  obtain ⟨h', hrun, hl'', -⟩ := listInsert_isList hl' he hentry hnew'
  exact ⟨h', hrun, hl'', listInsert_sameBut hl' he hnew' hrun⟩

/-- **`list_pop_front`** fails on the empty list only. -/
theorem listPopFront_isList (hl : IsList h list (x :: nodes)) :
    ∃ h', h.listPopFront list = some (some x.1, h') ∧ IsList h' list nodes ∧
      SameBut (list.elems (x :: nodes)) h h' := by
  obtain ⟨h', hrun, hl', hs⟩ := listRemove_isList (X := []) hl
  refine ⟨h', ?_, hl', hs⟩
  rw [Heap.listPopFront, listFront_spec hl]
  simp only [List.head?_cons, Option.map_some, Option.bind_eq_bind, Option.bind_some, hrun]
  rfl

/-- **`list_pop_back`** fails on the empty list only. -/
theorem listPopBack_isList (hl : IsList h list (nodes ++ [x])) :
    ∃ h', h.listPopBack list = some (some x.1, h') ∧ IsList h' list nodes ∧
      SameBut (list.elems (nodes ++ [x])) h h' := by
  obtain ⟨h', hrun, hl', hs⟩ := listRemove_isList hl
  refine ⟨h', ?_, by simpa using hl', hs⟩
  rw [Heap.listPopBack, listBack_spec hl]
  simp only [List.getLast?_concat, Option.map_some, Option.bind_eq_bind, Option.bind_some, hrun]
  rfl

theorem sizeLoop_spec (hr : Stretch h s list.tail) : ∀ fuel cnt, s.length < fuel →
    h.sizeLoop list fuel (some (start s list.tail)) cnt = some (cnt + s.length) := by
  induction s with
  | nil =>
    intro fuel cnt hfuel
    obtain ⟨fuel, rfl⟩ : ∃ n, fuel = n + 1 := ⟨fuel - 1, by omega⟩
    rw [Heap.sizeLoop, if_neg (by simp [listEnd])]
    rfl
  | cons x s ih =>
    intro fuel cnt hfuel
    obtain ⟨fuel, rfl⟩ : ∃ n, fuel = n + 1 := ⟨fuel - 1, by omega⟩
    rw [List.length_cons] at hfuel ⊢
    rw [Heap.sizeLoop, if_pos (hr.start_ne_end (List.cons_ne_nil x s)), start_cons, hr.listNext]
    show h.sizeLoop list fuel (some (start s list.tail)) (cnt + 1) = _
    rw [ih hr.tail fuel (cnt + 1) (by omega)]
    congr 1
    omega

/-- `list_size` counts the nodes. -/
theorem listSize_spec (hl : IsList h list nodes) {fuel : Nat} (hfuel : nodes.length < fuel) :
    h.listSize fuel list = some nodes.length := by
  have := sizeLoop_spec (IsList.stretch (X := []) hl) fuel 0 hfuel
  rw [Nat.zero_add] at this
  rw [Heap.listSize, hl.listBegin]
  exact this

/-! ## Reversing -/

/-- The memory after the elements have exchanged their links. -/
theorem swapLinks_eq (ha : h.live a = true) :
    h.swapLinks (some a) = some (h.relink (h.toLinks.flipOn [a])) := by
  have hlinks : h.toLinks.flipOn [a] =
      ⟨Function.update h.prev a (h.next a), Function.update h.next a (h.prev a)⟩ := by
    unfold Links.flipOn
    simp only [List.mem_singleton]
    congr 1
    · funext c
      by_cases hc : c = a
      · rw [if_pos hc, hc, Function.update_self]
      · rw [if_neg hc, Function.update_of_ne hc]
    · funext c
      by_cases hc : c = a
      · rw [if_pos hc, hc, Function.update_self]
      · rw [if_neg hc, Function.update_of_ne hc]
  unfold Heap.swapLinks
  simp only [Option.bind_eq_bind, Option.bind_some, readPrev_of_live, readNext_of_live,
    setPrev_of_live, setNext_of_live, live_relink, toLinks_relink, ha, hlinks]
  rfl

theorem sameBut_flipOn (h : Heap α) (as : List Addr) :
    SameBut as h (h.relink (h.toLinks.flipOn as)) :=
  ⟨rfl, rfl, fun _ ha => ⟨if_neg ha, if_neg ha⟩⟩

/-- An element and then others. -/
theorem flipOn_cons (k : Links Addr) {a : Addr} {as : List Addr} (ha : a ∉ as) :
    (k.flipOn [a]).flipOn as = k.flipOn (a :: as) := by
  unfold Links.flipOn
  congr 1
  · funext c
    by_cases hc : c ∈ as
    · have hca : c ≠ a := fun h => ha (h ▸ hc)
      simp [hc, hca]
    · simp [hc]
  · funext c
    by_cases hc : c ∈ as
    · have hca : c ≠ a := fun h => ha (h ▸ hc)
      simp [hc, hca]
    · simp [hc]

/-- The loop of `list_reverse` goes along the old links. -/
theorem reverseLoop_spec : ∀ (fuel : Nat) (h : Heap α), s.length < fuel →
    Stretch h s list.tail →
    Heap.reverseLoop list fuel h (some (start s list.tail)) =
      some (h.relink (h.toLinks.flipOn (s.map Prod.fst))) := by
  induction s with
  | nil =>
    intro fuel h hfuel _
    obtain ⟨fuel, rfl⟩ : ∃ n, fuel = n + 1 := ⟨fuel - 1, by omega⟩
    rw [Heap.reverseLoop, if_neg (by simp [listEnd])]
    simp [Links.flipOn, Heap.relink]
  | cons x s ih =>
    intro fuel h hfuel hr
    obtain ⟨fuel, rfl⟩ : ∃ n, fuel = n + 1 := ⟨fuel - 1, by omega⟩
    rw [List.length_cons] at hfuel
    have hx : h.live x.1 = true := hr.live x.1 (by simp)
    have hnd := List.nodup_cons.mp hr.nodup
    have hr' : Stretch (h.relink (h.toLinks.flipOn [x.1])) s list.tail :=
      hr.tail.frame (sameBut_flipOn h [x.1]) fun a ha hax =>
        hnd.1 (List.mem_singleton.mp hax ▸ ha)
    have hprev : (h.relink (h.toLinks.flipOn [x.1])).readPrev (some x.1) =
        some (some (start s list.tail)) := by
      rw [readPrev_of_live (by simpa using hx)]
      show some (if x.1 ∈ [x.1] then h.next x.1 else _) = _
      rw [if_pos (List.mem_singleton_self _), hr.joined.1]
    rw [Heap.reverseLoop, if_pos (hr.start_ne_end (List.cons_ne_nil x s)), start_cons,
      swapLinks_eq hx]
    show (Option.bind ((h.relink (h.toLinks.flipOn [x.1])).readPrev (some x.1)) fun p =>
      Heap.reverseLoop list fuel (h.relink (h.toLinks.flipOn [x.1])) p) = _
    rw [hprev, Option.bind_some, ih fuel _ (by omega) hr', toLinks_relink,
      flipOn_cons _ fun hmem => hnd.1 (List.mem_append_left _ hmem)]
    rfl

/-- The writes after the loop, on links in which `f` and `l` are the old ends. -/
theorem swaps_eq {f l : Addr} (hh : h.live list.head = true) (ht : h.live list.tail = true)
    (hf : h.live f = true) (hl : h.live l = true) (hnext : h.next list.head = some f)
    (hprev : h.prev list.tail = some l) (hlt : h.prev l = some list.tail)
    (hfh : h.next f = some list.head) (hlne : l ≠ list.tail) (hfne : f ≠ list.head) :
    ((h.swapEnds list).bind fun h => h.swapNeighbours list) =
      some (h.relink ((h.toLinks.join list.head l).join f list.tail)) := by
  have h1 : Function.update h.prev list.tail (some f) l = some list.tail := by
    rw [Function.update_of_ne hlne, hlt]
  have h2 : Function.update h.next list.head (some l) f = some list.head := by
    rw [Function.update_of_ne hfne, hfh]
  unfold Heap.swapEnds Heap.swapNeighbours
  simp only [Option.bind_eq_bind, Option.bind_some, readPrev_of_live, readNext_of_live,
    setPrev_of_live, setNext_of_live, live_relink, toLinks_relink, hh, ht, hf, hl, hnext, hprev,
    Function.update_self, h1, h2, Links.join, Function.update_comm hlne]
  rfl

/-- **`list_reverse`** reverses the nodes. -/
theorem listReverse_isList (hl : IsList h list nodes) {fuel : Nat} (hfuel : nodes.length < fuel) :
    ∃ h', h.listReverse fuel list = some h' ∧ IsList h' list nodes.reverse ∧
      SameBut (list.elems nodes) h h' := by
  rcases List.eq_nil_or_concat' nodes with rfl | ⟨init, y, hlast⟩
  · refine ⟨h, ?_, hl, .refl _ _⟩
    rw [Heap.listReverse, listEmpty_spec hl]
    rfl
  obtain ⟨x, rest, hfirst⟩ : ∃ x rest, nodes = x :: rest :=
    List.exists_cons_of_ne_nil (by simp [hlast])
  have hmem : ∀ {z}, z ∈ nodes → z.1 ∈ list.elems nodes := fun hz =>
    List.mem_append_left _ (List.mem_cons_of_mem _ (List.mem_map_of_mem hz))
  have hx : x ∈ nodes := by simp [hfirst]
  have hy : y ∈ nodes := by simp [hlast]
  have hhead : list.head ∈ list.elems nodes := by simp [PintosList.elems]
  have htail : list.tail ∈ list.elems nodes := by simp [PintosList.elems]
  have hnd : (list.head :: (nodes.map Prod.fst ++ [list.tail])).Nodup := hl.nodup
  have hheadnot : list.head ∉ nodes.map Prod.fst := fun h =>
    (List.nodup_cons.mp hnd).1 (List.mem_append_left _ h)
  have htailnot : list.tail ∉ nodes.map Prod.fst := fun h =>
    List.disjoint_of_nodup_append (List.nodup_cons.mp hnd).2 h (List.mem_singleton_self _)
  -- the ends, before the loop
  have hhx : h.Joined list.head x.1 := by
    have hl' : IsList h list ([] ++ x :: rest) := hfirst ▸ hl
    obtain ⟨r, hr, -, -, hj⟩ := hl'.gap
    obtain rfl : list.head = r := by simpa using hr
    exact hj
  have hyt : h.Joined y.1 list.tail := by
    have hl' : IsList h list (init ++ [y] ++ []) := by simpa [← hlast] using hl
    obtain ⟨r, hr, -, -, hj⟩ := hl'.gap
    obtain rfl := eq_of_mem_getLast? hr
    exact hj
  have hx' : x.1 ∈ nodes.map Prod.fst := List.mem_map_of_mem hx
  have hy' : y.1 ∈ nodes.map Prod.fst := List.mem_map_of_mem hy
  have hrun := swaps_eq (h := h.relink (h.toLinks.flipOn (nodes.map Prod.fst)))
    (hl.live _ hhead) (hl.live _ htail) (hl.live _ (hmem hx)) (hl.live _ (hmem hy))
    ((if_neg hheadnot).trans hhx.1) ((if_neg htailnot).trans hyt.2) ((if_pos hy').trans hyt.1)
    ((if_pos hx').trans hhx.2) (fun heq => htailnot (heq ▸ hy')) fun heq => hheadnot (heq ▸ hx')
  have hloop := reverseLoop_spec fuel h hfuel (IsList.stretch (X := []) hl)
  have hperm := elems_perm list nodes.reverse_perm
  refine ⟨h.relink (((h.toLinks.flipOn (nodes.map Prod.fst)).join list.head y.1).join x.1
      list.tail), ?_, ⟨hperm.nodup_iff.mpr hl.nodup, fun a ha => hl.live a (hperm.mem_iff.mp ha),
    ?_, ?_, ?_, fun z hz => hl.entry z (List.mem_reverse.mp hz)⟩, ?_⟩
  · rw [Heap.listReverse, listEmpty_spec hl, hl.listBegin]
    simp only [Option.bind_eq_bind, Option.bind_some, decide_eq_true_eq,
      if_neg (List.ne_nil_of_mem hx), hloop]
    exact hrun
  · have hht : list.head ≠ list.tail := fun heq =>
      (List.nodup_cons.mp hnd).1 (heq ▸ by simp)
    have hhy : list.head ≠ y.1 := fun heq => hheadnot (heq ▸ hy')
    rw [toLinks_relink, Links.prev_join_of_ne hht, Links.prev_join_of_ne hhy]
    exact (if_neg hheadnot).trans hl.head_prev
  · have hth : list.tail ≠ list.head := fun heq =>
      (List.nodup_cons.mp hnd).1 (heq ▸ by simp)
    have htx : list.tail ≠ x.1 := fun heq => htailnot (heq ▸ hx')
    rw [toLinks_relink, Links.next_join_of_ne htx, Links.next_join_of_ne hth]
    exact (if_neg htailnot).trans hl.tail_next
  · have hinner : h.Chained (nodes.map Prod.fst) := (IsList.stretch (X := []) hl).chained.left
    have hrev := hinner.flipOn
    have hnd' : ([list.head] ++ (nodes.map Prod.fst).reverse ++ [list.tail]).Nodup := by
      have := hperm.nodup_iff.mpr hl.nodup
      rw [PintosList.elems, List.map_reverse] at this
      exact this
    have hy'' : y.1 ∈ (nodes.map Prod.fst).reverse.head? := by
      rw [hlast, List.map_append, List.reverse_append]
      rfl
    have hx'' : x.1 ∈ (nodes.map Prod.fst).reverse.getLast? := by
      rw [hfirst, List.map_cons, List.reverse_cons, List.getLast?_concat]
      rfl
    rw [PintosList.elems, List.map_reverse]
    refine (Links.Chained.append_join (l := [list.head]) (.singleton _) hrev
      hnd'.of_append_left rfl hy'').append_join (.singleton _) hnd' ?_ rfl
    exact List.mem_getLast?_append_of_mem_getLast? hx''
  · refine sameBut_join _ (sameBut_join _ ?_ hhead (hmem hy)) (hmem hx) htail
    exact (sameBut_flipOn h _).mono fun a ha =>
      List.mem_append_left _ (List.mem_cons_of_mem _ ha)

end SystemProgramming.Words
