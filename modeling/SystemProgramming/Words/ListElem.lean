import Mathlib.Data.Option.Basic
import SystemProgramming.Lib.Links
import SystemProgramming.Lib.Sorting

/-!
# The elements of a list

The operations of `list.c` that the word counter uses, on a memory of `struct list_elem`s. A list
has two elements of its own, the head and the tail, and each other element is embedded in a
structure, its entry, which `list_entry` finds. An `ASSERT` that fails and a pointer to no element
that is followed are `none`.

* `IsList`: what a well-formed list is, with its nodes in order.
* `listInit_isList`, `listInsert_isList`, `listSplice_isList`: each operation on it.
-/

namespace SystemProgramming.Words

open Lib

/-- An address. -/
abbrev Addr := Nat

/-- A pointer, with `none` for `NULL`. -/
abbrev Ptr := Option Addr

/-- The memory: the elements that exist, their links, and their entries. -/
structure Heap (α : Type) extends Links Addr where
  live : Addr → Bool
  entry : Addr → Option α

/-- `struct list`: where its two elements are. -/
structure PintosList where
  head : Addr
  tail : Addr

variable {α : Type}

namespace Heap

/-- The element that is pointed at. -/
def deref (h : Heap α) (p : Ptr) : Option Addr := p.filter h.live

/-- `p->prev`. -/
def readPrev (h : Heap α) (p : Ptr) : Option Ptr := (h.deref p).map h.prev

/-- `p->next`. -/
def readNext (h : Heap α) (p : Ptr) : Option Ptr := (h.deref p).map h.next

/-- `p->prev = q`. -/
def setPrev (h : Heap α) (p q : Ptr) : Option (Heap α) :=
  (h.deref p).map fun a => { h with prev := Function.update h.prev a q }

/-- `p->next = q`. -/
def setNext (h : Heap α) (p q : Ptr) : Option (Heap α) :=
  (h.deref p).map fun a => { h with next := Function.update h.next a q }

/-- `list_entry`. -/
def listEntry (h : Heap α) (p : Ptr) : Option α := (h.deref p).bind h.entry

/-- `is_head`. -/
def isHead (h : Heap α) (elem : Ptr) : Bool :=
  (h.deref elem).any fun a => (h.prev a).isNone && (h.next a).isSome

/-- `is_interior`. -/
def isInterior (h : Heap α) (elem : Ptr) : Bool :=
  (h.deref elem).any fun a => (h.prev a).isSome && (h.next a).isSome

/-- `is_tail`. -/
def isTail (h : Heap α) (elem : Ptr) : Bool :=
  (h.deref elem).any fun a => (h.prev a).isSome && (h.next a).isNone

/-- `list_init`. -/
def listInit (h : Heap α) (list : PintosList) : Option (Heap α) := do
  let h ← h.setPrev (some list.head) none
  let h ← h.setNext (some list.head) (some list.tail)
  let h ← h.setPrev (some list.tail) (some list.head)
  h.setNext (some list.tail) none

/-- `list_begin`. -/
def listBegin (h : Heap α) (list : PintosList) : Option Ptr := h.readNext (some list.head)

/-- `list_next`. -/
def listNext (h : Heap α) (elem : Ptr) : Option Ptr :=
  if h.isHead elem || h.isInterior elem then h.readNext elem else none

/-- `list_prev`. -/
def listPrev (h : Heap α) (elem : Ptr) : Option Ptr :=
  if h.isInterior elem || h.isTail elem then h.readPrev elem else none

/-- `list_insert`. -/
def listInsert (h : Heap α) (before elem : Ptr) : Option (Heap α) :=
  if (h.isInterior before || h.isTail before) && elem.isSome then do
    let h ← h.setPrev elem (← h.readPrev before)
    let h ← h.setNext elem before
    let h ← h.setNext (← h.readPrev before) elem
    h.setPrev before elem
  else none

/-- `list_splice`. -/
def listSplice (h : Heap α) (before first last : Ptr) : Option (Heap α) :=
  if h.isInterior before || h.isTail before then
    if first = last then some h
    else do
      let last ← h.listPrev last
      if h.isInterior first && h.isInterior last then
        let h ← h.setNext (← h.readPrev first) (← h.readNext last)
        let h ← h.setPrev (← h.readNext last) (← h.readPrev first)
        let h ← h.setPrev first (← h.readPrev before)
        let h ← h.setNext last before
        let h ← h.setNext (← h.readPrev before) first
        h.setPrev before last
      else none
  else none

end Heap

/-- `list_end`. -/
def listEnd (list : PintosList) : Ptr := some list.tail

/-- `list_push_back`. -/
def Heap.listPushBack (h : Heap α) (list : PintosList) (elem : Ptr) : Option (Heap α) :=
  h.listInsert (listEnd list) elem

/-! ## Lists -/

/-- The elements of a list with these nodes, its own two included. -/
def PintosList.elems (list : PintosList) (nodes : List (Addr × α)) : List Addr :=
  list.head :: nodes.map Prod.fst ++ [list.tail]

/-- **A well-formed list** with its nodes, each with its entry: from the head to the tail the links
are inverse to each other, and no element comes twice. -/
structure IsList (h : Heap α) (list : PintosList) (nodes : List (Addr × α)) : Prop where
  nodup : (list.elems nodes).Nodup
  live : ∀ a ∈ list.elems nodes, h.live a = true
  head_prev : h.prev list.head = none
  tail_next : h.next list.tail = none
  chained : h.Chained (list.elems nodes)
  entry : ∀ x ∈ nodes, h.entry x.1 = some x.2

/-- The address of the first of the nodes, or of what follows them. -/
def start (nodes : List (Addr × α)) (b : Addr) : Addr := (nodes.map Prod.fst).headD b

@[simp] theorem start_nil (b : Addr) : start ([] : List (Addr × α)) b = b := rfl

@[simp] theorem start_cons (x : Addr × α) (nodes : List (Addr × α)) (b : Addr) :
    start (x :: nodes) b = x.1 := rfl

theorem start_append (s t : List (Addr × α)) (b : Addr) :
    start (s ++ t) b = start s (start t b) := by
  cases s <;> rfl

theorem head?_start (s : List (Addr × α)) (b : Addr) :
    start s b ∈ (s.map Prod.fst ++ [b]).head? := by
  cases s <;> rfl

/-- The comparison of two nodes. -/
def nodeLess (less : α → α → Bool) (x y : Addr × α) : Bool := less x.2 y.2

theorem nodeLess_strictWeak {less : α → α → Bool} (h : StrictWeak less) :
    StrictWeak (nodeLess less) :=
  ⟨fun a b => h.asymm a.2 b.2, fun a b c => h.trans a.2 b.2 c.2⟩

variable {h : Heap α} {list : PintosList} {a b : Addr}

/-! ## Steps along the links -/

theorem deref_of_live (ha : h.live a = true) : h.deref (some a) = some a := by
  simp [Heap.deref, Option.filter, ha]

/-- `list_next`, where there is a next element. -/
theorem listNext_of_joined (ha : h.live a = true) (hj : h.Joined a b) :
    h.listNext (some a) = some (some b) := by
  unfold Heap.listNext Heap.isHead Heap.isInterior Heap.readNext
  rw [deref_of_live ha]
  cases hp : h.prev a <;> simp [hp, hj.1]

/-- `list_prev`, where there is an element before. -/
theorem listPrev_of_joined (hb : h.live b = true) (hj : h.Joined a b) :
    h.listPrev (some b) = some (some a) := by
  unfold Heap.listPrev Heap.isInterior Heap.isTail Heap.readPrev
  rw [deref_of_live hb]
  cases hn : h.next b <;> simp [hn, hj.2]

/-- The element that another one is linked to from the left is no head. -/
theorem not_head_of_joined (hb : h.live b = true) (hj : h.Joined a b) :
    (h.isInterior (some b) || h.isTail (some b)) = true := by
  unfold Heap.isInterior Heap.isTail
  rw [deref_of_live hb]
  cases hn : h.next b <;> simp [hn, hj.2]

theorem isInterior_of_joined {c : Addr} (hb : h.live b = true) (hj : h.Joined a b)
    (hj' : h.Joined b c) : h.isInterior (some b) = true := by
  unfold Heap.isInterior
  rw [deref_of_live hb]
  simp [hj.2, hj'.1]

/-! ## The operations -/

/-- The memory with other links. -/
def Heap.relink (h : Heap α) (k : Links Addr) : Heap α := { h with toLinks := k }

@[simp] theorem toLinks_relink (h : Heap α) (k : Links Addr) : (h.relink k).toLinks = k := rfl

@[simp] theorem live_relink (h : Heap α) (k : Links Addr) : (h.relink k).live = h.live := rfl

@[simp] theorem entry_relink (h : Heap α) (k : Links Addr) : (h.relink k).entry = h.entry := rfl

theorem readPrev_of_live (ha : h.live a = true) : h.readPrev (some a) = some (h.prev a) := by
  rw [Heap.readPrev, deref_of_live ha, Option.map_some]

theorem readNext_of_live (ha : h.live a = true) : h.readNext (some a) = some (h.next a) := by
  rw [Heap.readNext, deref_of_live ha, Option.map_some]

theorem setPrev_of_live (ha : h.live a = true) (p : Ptr) : h.setPrev (some a) p =
    some (h.relink ⟨Function.update h.prev a p, h.next⟩) := by
  rw [Heap.setPrev, deref_of_live ha, Option.map_some]
  rfl

theorem setNext_of_live (ha : h.live a = true) (p : Ptr) : h.setNext (some a) p =
    some (h.relink ⟨h.prev, Function.update h.next a p⟩) := by
  rw [Heap.setNext, deref_of_live ha, Option.map_some]
  rfl

/-- The writes of `list_insert`. -/
theorem listInsert_eq {r e q : Addr} (hr : h.live r = true) (he : h.live e = true)
    (hq : h.live q = true) (hj : h.Joined r q) (hre : r ≠ e) (heq : e ≠ q) :
    h.listInsert (some q) (some e) = some (h.relink ((h.toLinks.join r e).join e q)) := by
  have hprev : Function.update h.prev e (some r) q = some r := by
    rw [Function.update_of_ne (Ne.symm heq), hj.2]
  unfold Heap.listInsert
  rw [not_head_of_joined hq hj]
  simp only [Option.isSome_some, Bool.and_self, if_true, Option.bind_eq_bind, Option.bind_some,
    readPrev_of_live, setPrev_of_live, setNext_of_live, live_relink, toLinks_relink, hr, he, hq,
    hj.2, hprev, Links.join, Function.update_comm hre]
  rfl

/-- The writes of `list_splice`. -/
theorem listSplice_eq {r b p f t q : Addr} (hr : h.live r = true) (hb : h.live b = true)
    (hp : h.live p = true) (hf : h.live f = true) (ht : h.live t = true) (hq : h.live q = true)
    (hrb : h.Joined r b) (hpf : h.Joined p f) (htq : h.Joined t q)
    (hfi : h.isInterior (some f) = true) (hti : h.isInterior (some t) = true)
    (hfq : f ≠ q) (hbq : b ≠ q) (hbf : b ≠ f) (htp : t ≠ p) (htr : t ≠ r) :
    h.listSplice (some b) (some f) (some q) =
      some (h.relink (((h.toLinks.join p q).join r f).join t b)) := by
  unfold Heap.listSplice
  rw [not_head_of_joined hb hrb, listPrev_of_joined hq htq]
  have h1 : Function.update h.next p (some q) t = some q := by
    rw [Function.update_of_ne htp, htq.1]
  have h2 : Function.update h.prev q (some p) b = some r := by
    rw [Function.update_of_ne hbq, hrb.2]
  have h3 : Function.update (Function.update h.prev q (some p)) f (some r) b = some r := by
    rw [Function.update_of_ne hbf, h2]
  have hne : some f ≠ some q := fun h => hfq (Option.some.inj h)
  simp only [if_true, if_neg hne, Option.bind_eq_bind, Option.bind_some, hfi, hti, Bool.and_self,
    readPrev_of_live, readNext_of_live, setPrev_of_live, setNext_of_live, live_relink,
    toLinks_relink, hr, hb, hp, hf, ht, hq, hpf.2, htq.1, h1, h2, h3, Links.join,
    Function.update_comm htr]
  rfl

/-- **`list_init`** makes an empty list. -/
theorem listInit_isList (hne : list.head ≠ list.tail) (hh : h.live list.head = true)
    (ht : h.live list.tail = true) :
    ∃ h', h.listInit list = some h' ∧ IsList h' list [] ∧ h'.live = h.live ∧
      h'.entry = h.entry := by
  refine ⟨{ h with
    prev := Function.update (Function.update h.prev list.head none) list.tail (some list.head)
    next := Function.update (Function.update h.next list.head (some list.tail)) list.tail none },
    ?_, ⟨?_, ?_, ?_, ?_, ?_, ?_⟩, rfl, rfl⟩
  · simp [Heap.listInit, Heap.setPrev, Heap.setNext, Heap.deref, Option.filter, hh, ht]
  · simpa [PintosList.elems] using hne
  · simp [PintosList.elems, hh, ht]
  · simp [Function.update_of_ne hne]
  · simp
  · refine List.isChain_cons_cons.mpr ⟨⟨?_, ?_⟩, .singleton _⟩
    · simp [Function.update_of_ne hne]
    · simp
  · simp

theorem elems_append (list : PintosList) (s t : List (Addr × α)) :
    list.elems (s ++ t) = list.head :: s.map Prod.fst ++ (t.map Prod.fst ++ [list.tail]) := by
  simp [PintosList.elems]

theorem elems_perm (list : PintosList) {m n : List (Addr × α)} (hp : m.Perm n) :
    (list.elems m).Perm (list.elems n) := ((hp.map Prod.fst).append_right _).cons _

theorem exists_getLast? (a : Addr) (l : List Addr) : ∃ r, r ∈ (a :: l).getLast? :=
  ⟨_, List.getLast?_eq_some_getLast (List.cons_ne_nil a l)⟩

/-- **`list_insert`** puts an element that is not in the list before another one. -/
theorem listInsert_isList {X Y : List (Addr × α)} {e : Addr × α} (hl : IsList h list (X ++ Y))
    (he : h.live e.1 = true) (hentry : h.entry e.1 = some e.2) (hnew : e.1 ∉ list.elems (X ++ Y)) :
    ∃ h', h.listInsert (some (start Y list.tail)) (some e.1) = some h' ∧
      IsList h' list (X ++ e :: Y) ∧ h'.live = h.live ∧ h'.entry = h.entry := by
  obtain ⟨r, hr⟩ := exists_getLast? list.head (X.map Prod.fst)
  have hq := head?_start Y list.tail
  have hr' : r ∈ list.elems (X ++ Y) := by
    rw [elems_append]
    exact List.mem_append_left _ (List.mem_of_getLast? hr)
  have hq' : start Y list.tail ∈ list.elems (X ++ Y) := by
    rw [elems_append]
    exact List.mem_append_right _ (List.mem_of_head? hq)
  have hne : ∀ {x}, x ∈ list.elems (X ++ Y) → x ≠ e.1 := fun hx heq => hnew (heq ▸ hx)
  have hperm : (list.elems (X ++ e :: Y)).Perm (e.1 :: list.elems (X ++ Y)) :=
    (elems_perm list List.perm_middle).trans (.swap ..)
  have hnd : (list.elems (X ++ e :: Y)).Nodup :=
    hperm.nodup_iff.mpr (List.nodup_cons.mpr ⟨hnew, hl.nodup⟩)
  have hch := hl.chained
  have hdisj := hl.nodup
  rw [elems_append] at hch hdisj
  have hdisj := List.disjoint_of_nodup_append hdisj
  refine ⟨_, listInsert_eq (hl.live r hr') he (hl.live _ hq') (hch.joined hr hq) (hne hr')
    (hne hq').symm, ⟨hnd, ?_, ?_, ?_, ?_, ?_⟩, rfl, rfl⟩
  · intro x hx
    rcases List.mem_cons.mp (hperm.mem_iff.mp hx) with rfl | hx
    · exact he
    · exact hl.live x hx
  · have hhq : list.head ≠ start Y list.tail := fun heq =>
      hdisj List.mem_cons_self (heq ▸ List.mem_of_head? hq)
    rw [toLinks_relink, Links.prev_join_of_ne hhq,
      Links.prev_join_of_ne (hne (by simp [PintosList.elems]))]
    exact hl.head_prev
  · have htr : list.tail ≠ r := fun heq =>
      hdisj (heq ▸ List.mem_of_getLast? hr) (by simp)
    rw [toLinks_relink, Links.next_join_of_ne (hne (by simp [PintosList.elems])),
      Links.next_join_of_ne htr]
    exact hl.tail_next
  · rw [elems_append] at hnd ⊢
    exact hch.insert hnd hr hq
  · intro x hx
    rw [List.mem_append, List.mem_cons] at hx
    rcases hx with hx | rfl | hx
    · exact hl.entry x (List.mem_append_left _ hx)
    · exact hentry
    · exact hl.entry x (List.mem_append_right _ hx)

/-- A part of a chain that has something before it and behind it is inside the list. -/
theorem isInterior_of_mem {A S C : List Addr} {x : Addr} (hch : h.Chained (A ++ S ++ C))
    (hlive : h.live x = true) (hx : x ∈ S) (hA : A ≠ []) (hC : C ≠ []) :
    h.isInterior (some x) = true := by
  obtain ⟨s₁, s₂, rfl⟩ := List.append_of_mem hx
  obtain ⟨p, hp⟩ : ∃ p, p ∈ (A ++ s₁).getLast? :=
    ⟨_, List.getLast?_eq_some_getLast (by simp [hA])⟩
  obtain ⟨q, hq⟩ : ∃ q, q ∈ (s₂ ++ C).head? :=
    ⟨_, List.head?_eq_some_head (by simp [hC])⟩
  have heq : A ++ (s₁ ++ x :: s₂) ++ C = A ++ s₁ ++ (x :: (s₂ ++ C)) := by simp
  rw [heq] at hch
  have hpx : h.Joined p x := hch.joined hp rfl
  have hxq : h.Joined x q := by
    refine Links.Chained.joined (l := [x]) ?_ rfl hq
    exact hch.right
  exact isInterior_of_joined hlive hpx hxq

/-- `list_splice` on four parts of a chain moves the third one in front of the second. -/
theorem listSplice_chained {A B S C : List Addr} {r b p f t q : Addr}
    (hch : h.Chained (A ++ B ++ S ++ C)) (hnd : (A ++ B ++ S ++ C).Nodup)
    (hlive : ∀ x ∈ A ++ B ++ S ++ C, h.live x = true) (hr : r ∈ A.getLast?) (hb : b ∈ B.head?)
    (hp : p ∈ B.getLast?) (hf : f ∈ S.head?) (ht : t ∈ S.getLast?) (hq : q ∈ C.head?) :
    h.listSplice (some b) (some f) (some q) =
      some (h.relink (((h.toLinks.join p q).join r f).join t b)) := by
  obtain ⟨-, dAS, dBS, -, dBC, dSC⟩ := parts_disjoint hnd
  have hr' := List.mem_of_getLast? hr
  have hb' := List.mem_of_head? hb
  have hp' := List.mem_of_getLast? hp
  have hf' := List.mem_of_head? hf
  have ht' := List.mem_of_getLast? ht
  have hq' := List.mem_of_head? hq
  have live : ∀ {x}, ((x ∈ A ∨ x ∈ B) ∨ x ∈ S) ∨ x ∈ C → h.live x = true := fun hx =>
    hlive _ (by simpa only [List.mem_append] using hx)
  have hin : ∀ x ∈ S, h.isInterior (some x) = true := fun x hx =>
    isInterior_of_mem hch (live (.inl (.inr hx))) hx
      (List.append_ne_nil_of_left_ne_nil (List.ne_nil_of_mem hr') B) (List.ne_nil_of_mem hq')
  have hrb : h.Joined r b := hch.left.left.joined hr hb
  have hpf : h.Joined p f := hch.left.joined (List.mem_getLast?_append_of_mem_getLast? hp) hf
  have htq : h.Joined t q := hch.joined (List.mem_getLast?_append_of_mem_getLast? ht) hq
  exact listSplice_eq (live (.inl (.inl (.inl hr')))) (live (.inl (.inl (.inr hb'))))
    (live (.inl (.inl (.inr hp')))) (live (.inl (.inr hf'))) (live (.inl (.inr ht')))
    (live (.inr hq')) hrb hpf htq (hin f hf') (hin t ht') (dSC f hf' q hq') (dBC b hb' q hq')
    (dBS b hb' f hf') (dBS p hp' t ht').symm (dAS r hr' t ht').symm

/-- **`list_splice`** moves the nodes of `f :: S` to the front of those of `b :: B`. -/
theorem listSplice_isList {X B S Y : List (Addr × α)} {b f : Addr × α}
    (hl : IsList h list (X ++ b :: B ++ f :: S ++ Y)) :
    ∃ h', h.listSplice (some b.1) (some f.1) (some (start Y list.tail)) = some h' ∧
      IsList h' list (X ++ f :: S ++ b :: B ++ Y) := by
  obtain ⟨r, hr⟩ := exists_getLast? list.head (X.map Prod.fst)
  obtain ⟨p, hp⟩ := exists_getLast? b.1 (B.map Prod.fst)
  obtain ⟨t, ht⟩ := exists_getLast? f.1 (S.map Prod.fst)
  have hq := head?_start Y list.tail
  have helems : ∀ B S : List (Addr × α), list.elems (X ++ B ++ S ++ Y) =
      list.head :: X.map Prod.fst ++ B.map Prod.fst ++ S.map Prod.fst ++
        (Y.map Prod.fst ++ [list.tail]) := fun B S => by
    simp [PintosList.elems]
  have hperm : (X ++ f :: S ++ b :: B ++ Y).Perm (X ++ b :: B ++ f :: S ++ Y) := by
    refine List.Perm.append_right Y ?_
    rw [List.append_assoc, List.append_assoc]
    exact List.perm_append_comm.append_left X
  have hperm' := elems_perm list hperm
  have hnd := hl.nodup
  have hch := hl.chained
  have hlive := hl.live
  rw [helems] at hnd hch hlive
  obtain ⟨dAB, dAS, dBS, dAC, dBC, dSC⟩ := parts_disjoint hnd
  have hhead : list.head ∈ list.head :: X.map Prod.fst := List.mem_cons_self
  have htail : list.tail ∈ Y.map Prod.fst ++ [list.tail] := by simp
  refine ⟨_, listSplice_chained hch hnd hlive hr rfl hp rfl ht hq, ⟨?_, ?_, ?_, ?_, ?_, ?_⟩⟩
  · exact hperm'.nodup_iff.mpr hl.nodup
  · exact fun x hx => hl.live x (hperm'.mem_iff.mp hx)
  · rw [toLinks_relink, Links.prev_join_of_ne (dAB _ hhead _ List.mem_cons_self),
      Links.prev_join_of_ne (dAS _ hhead _ List.mem_cons_self),
      Links.prev_join_of_ne (dAC _ hhead _ (List.mem_of_head? hq))]
    exact hl.head_prev
  · rw [toLinks_relink, Links.next_join_of_ne (dSC _ (List.mem_of_getLast? ht) _ htail).symm,
      Links.next_join_of_ne (dAC _ (List.mem_of_getLast? hr) _ htail).symm,
      Links.next_join_of_ne (dBC _ (List.mem_of_getLast? hp) _ htail).symm]
    exact hl.tail_next
  · rw [helems]
    exact hch.splice hnd hr rfl hp rfl ht hq
  · exact fun x hx => hl.entry x (hperm.mem_iff.mp hx)

end SystemProgramming.Words
