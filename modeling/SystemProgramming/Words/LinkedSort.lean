import SystemProgramming.Words.ListElem
import SystemProgramming.Words.WordCount

/-!
# `wordcount_sort` on nodes in memory

The insertion sort of `word_count.c` on the nodes themselves, which it links anew. A pointer to no
node that is followed gives `none`, and so does running out of fuel.

* `insertLoop_spec`: the loop of `wordcount_insert_ordered` finds the place of the element, and the
  two writes behind it put it there.
* `wordcountSort_nullEnded`: the sort of a list ends with a list of the same nodes in order.
-/

namespace SystemProgramming.Words.Linked

open Lib

/-- `word_count_t`. -/
structure Node where
  wc : WordCount
  next : Ptr

/-- The nodes that are allocated. -/
abbrev Memory := Addr → Option Node

namespace Memory

/-- `*p`. -/
def get (m : Memory) (p : Ptr) : Option Node := p.bind m

/-- `p->next = q`. -/
def setNext (m : Memory) (p q : Ptr) : Option Memory :=
  p.bind fun a => (m a).map fun n => Function.update m a (some { n with next := q })

/-- `less(p, q)`. -/
def compare (m : Memory) (less : WordCount → WordCount → Bool) (p q : Ptr) : Option Bool := do
  return less (← m.get p).wc (← m.get q).wc

/-- The loop of `wordcount_insert_ordered`: `prev` and `cur` afterwards. -/
def insertLoop (m : Memory) (less : WordCount → WordCount → Bool) (elem : Ptr) :
    Nat → Ptr → Ptr → Option (Ptr × Ptr)
  | 0, _, _ => none
  | fuel + 1, prev, cur => do
    if cur = none then return (prev, cur)
    else if ← m.compare less cur elem then
      m.insertLoop less elem fuel cur (← m.get cur).next
    else return (prev, cur)

/-- `wordcount_insert_ordered`: the memory and `*wclist`. -/
def wordcountInsertOrdered (fuel : Nat) (m : Memory) (less : WordCount → WordCount → Bool)
    (wclist elem : Ptr) : Option (Memory × Ptr) := do
  let prev := wclist
  if prev = none then return (← m.setNext elem prev, elem)
  else if ← m.compare less elem prev then return (← m.setNext elem prev, elem)
  else
    let (prev, cur) ← m.insertLoop less elem fuel prev (← m.get prev).next
    let m ← m.setNext prev elem
    return (← m.setNext elem cur, wclist)

/-- The loop of `wordcount_sort`: the memory and `sorted`. -/
def sortLoop (fuel : Nat) (less : WordCount → WordCount → Bool) :
    Nat → Memory → Ptr → Ptr → Option (Memory × Ptr)
  | 0, _, _, _ => none
  | rounds + 1, m, head, sorted =>
    if head ≠ none then do
      let toInsert := head
      let head := (← m.get head).next
      let m ← m.setNext toInsert none
      let (m, sorted) ← m.wordcountInsertOrdered fuel less sorted toInsert
      sortLoop fuel less rounds m head sorted
    else some (m, sorted)

/-- `wordcount_sort`: the memory and `*wclist`. -/
def wordcountSort (fuel : Nat) (m : Memory) (less : WordCount → WordCount → Bool) (wclist : Ptr) :
    Option (Memory × Ptr) := sortLoop fuel less fuel m wclist none

end Memory

/-! ## Lists -/

/-- **The list that starts at the pointer** and ends with `NULL`, with its nodes. -/
def NullEnded (m : Memory) : Ptr → List (Addr × WordCount) → Prop
  | p, [] => p = none
  | p, x :: nodes => p = some x.1 ∧ ∃ next, m x.1 = some ⟨x.2, next⟩ ∧ NullEnded m next nodes

variable {m : Memory} {less : WordCount → WordCount → Bool} {p : Ptr}
  {nodes : List (Addr × WordCount)} {e x : Addr × WordCount}

/-- Only the nodes of the list matter. -/
theorem NullEnded.congr {m' : Memory} (h : NullEnded m p nodes)
    (heq : ∀ a ∈ nodes.map Prod.fst, m' a = m a) : NullEnded m' p nodes := by
  induction nodes generalizing p with
  | nil => exact h
  | cons x nodes ih =>
    obtain ⟨hp, next, hx, hrest⟩ := h
    exact ⟨hp, next, (heq x.1 List.mem_cons_self).trans hx,
      ih hrest fun a ha => heq a (List.mem_cons_of_mem _ ha)⟩

/-- A write to another node. -/
theorem NullEnded.update {a : Addr} {n : Option Node} (h : NullEnded m p nodes)
    (ha : a ∉ nodes.map Prod.fst) : NullEnded (Function.update m a n) p nodes :=
  h.congr fun b hb => Function.update_of_ne (fun heq : b = a => ha (heq ▸ hb)) ..

theorem compare_eq {a b : Addr} {n n' : Node} (ha : m a = some n) (hb : m b = some n') :
    m.compare less (some a) (some b) = some (less n.wc n'.wc) := by
  simp [Memory.compare, Memory.get, ha, hb]

/-- The list with an element behind its first node. -/
theorem nullEnded_insert {next : Ptr} {n : Ptr} (hx : m x.1 = some ⟨x.2, next⟩)
    (hnodes : NullEnded m next nodes) (he : m e.1 = some ⟨e.2, n⟩) (hxe : x.1 ≠ e.1)
    (hxn : x.1 ∉ nodes.map Prod.fst) (hen : e.1 ∉ nodes.map Prod.fst) :
    ∃ m₁ m₂, m.setNext (some x.1) (some e.1) = some m₁ ∧ m₁.setNext (some e.1) next = some m₂ ∧
      NullEnded m₂ (some x.1) (x :: e :: nodes) ∧ ∀ a, a ≠ x.1 → a ≠ e.1 → m₂ a = m a := by
  have he₁ : Function.update m x.1 (some ⟨x.2, some e.1⟩) e.1 = some ⟨e.2, n⟩ := by
    rw [Function.update_of_ne (Ne.symm hxe), he]
  refine ⟨Function.update m x.1 (some ⟨x.2, some e.1⟩),
    Function.update (Function.update m x.1 (some ⟨x.2, some e.1⟩)) e.1 (some ⟨e.2, next⟩),
    by simp [Memory.setNext, hx], by simp [Memory.setNext, he₁],
    ⟨rfl, _, ?_, rfl, next, ?_, ?_⟩, ?_⟩
  · rw [Function.update_of_ne hxe, Function.update_self]
  · rw [Function.update_self]
  · exact (hnodes.update hxn).update hen
  · intro a hax hae
    rw [Function.update_of_ne hae, Function.update_of_ne hax]

variable (less) in
/-- **The loop of `wordcount_insert_ordered`** from the node `x` on, and the writes behind it. -/
theorem insertLoop_spec {n : Ptr} (he : m e.1 = some ⟨e.2, n⟩) :
    ∀ (nodes : List (Addr × WordCount)) (x : Addr × WordCount) (next : Ptr) (fuel : Nat),
      nodes.length < fuel →
      m x.1 = some ⟨x.2, next⟩ → NullEnded m next nodes →
      (e.1 :: x.1 :: nodes.map Prod.fst).Nodup →
      ∃ prev cur m₁ m₂ nodes',
        m.insertLoop less (some e.1) fuel (some x.1) next = some (prev, cur) ∧
        m.setNext prev (some e.1) = some m₁ ∧ m₁.setNext (some e.1) cur = some m₂ ∧
        NullEnded m₂ (some x.1) (x :: nodes') ∧ nodes'.Perm (e :: nodes) ∧
        nodes'.map Prod.snd = insertAfter less e.2 (nodes.map Prod.snd) ∧
        ∀ a, a ≠ e.1 → a ∉ x.1 :: nodes.map Prod.fst → m₂ a = m a := by
  intro nodes
  induction nodes with
  | nil =>
    intro x next fuel hfuel hx hnodes hnd
    obtain ⟨fuel, rfl⟩ : ∃ k, fuel = k + 1 := ⟨fuel - 1, by omega⟩
    obtain rfl : next = none := hnodes
    obtain ⟨hexn, -⟩ := List.nodup_cons.mp hnd
    have hxe : x.1 ≠ e.1 := fun heq => hexn (by simp [heq])
    have hnil : NullEnded m none [] := rfl
    obtain ⟨m₁, m₂, h₁, h₂, hl, hframe⟩ := nullEnded_insert hx hnil he hxe (by simp) (by simp)
    refine ⟨_, _, m₁, m₂, [e], by simp [Memory.insertLoop], h₁, h₂, hl, .refl _, rfl, ?_⟩
    exact fun a hae hax => hframe a (fun heq => hax (by simp [heq])) hae
  | cons y nodes ih =>
    intro x next fuel hfuel hx hnodes hnd
    obtain ⟨fuel, rfl⟩ : ∃ k, fuel = k + 1 := ⟨fuel - 1, by omega⟩
    have hall := hnodes
    obtain ⟨rfl, next', hy, hrest⟩ := hnodes
    obtain ⟨hexn, hxn⟩ := List.nodup_cons.mp hnd
    have hxe : x.1 ≠ e.1 := fun heq => hexn (by simp [heq])
    have hloop : m.insertLoop less (some e.1) (fuel + 1) (some x.1) (some y.1) =
        if less y.2 e.2 then m.insertLoop less (some e.1) fuel (some y.1) next'
        else some (some x.1, some y.1) := by
      simp [Memory.insertLoop, compare_eq hy he, Memory.get, hy]
    rw [hloop, List.map_cons, insertAfter]
    cases hlt : less y.2 e.2 with
    | true =>
      rw [List.length_cons] at hfuel
      obtain ⟨prev, cur, m₁, m₂, nodes', hrun, h₁, h₂, hl, hperm, hmap, hframe⟩ :=
        ih y next' fuel (by omega) hy hrest (hnd.sublist (by simp))
      have hx₂ : m₂ x.1 = some ⟨x.2, some y.1⟩ := by
        rw [hframe x.1 hxe (List.nodup_cons.mp hxn).1, hx]
      refine ⟨prev, cur, m₁, m₂, y :: nodes', hrun, h₁, h₂, ⟨rfl, _, hx₂, hl⟩,
        (hperm.cons y).trans (.swap e y nodes), by simp [hmap], ?_⟩
      exact fun a hae ha => hframe a hae fun hay => ha (List.mem_cons_of_mem _ hay)
    | false =>
      obtain ⟨m₁, m₂, h₁, h₂, hl, hframe⟩ := nullEnded_insert hx hall he hxe
        (List.nodup_cons.mp hxn).1 fun hen => hexn (List.mem_cons_of_mem _ hen)
      refine ⟨_, _, m₁, m₂, e :: y :: nodes, rfl, h₁, h₂, hl, .refl _, rfl, ?_⟩
      exact fun a hae ha => hframe a (fun heq => ha (by simp [heq])) hae

variable (less) in
/-- **`wordcount_insert_ordered`** puts the element into the list. -/
theorem wordcountInsertOrdered_spec {n : Ptr} (he : m e.1 = some ⟨e.2, n⟩)
    (hl : NullEnded m p nodes) (hnd : (e.1 :: nodes.map Prod.fst).Nodup) {fuel : Nat}
    (hfuel : nodes.length < fuel) :
    ∃ m' p' nodes', m.wordcountInsertOrdered fuel less p (some e.1) = some (m', p') ∧
      NullEnded m' p' nodes' ∧ nodes'.Perm (e :: nodes) ∧
      nodes'.map Prod.snd = Linked.wordcountInsertOrdered less (nodes.map Prod.snd) e.2 ∧
      ∀ a, a ≠ e.1 → a ∉ nodes.map Prod.fst → m' a = m a := by
  have hen := (List.nodup_cons.mp hnd).1
  -- at the front only the element changes
  have hfront : ∃ m', m.setNext (some e.1) p = some m' ∧ NullEnded m' (some e.1) (e :: nodes) ∧
      ∀ a, a ≠ e.1 → m' a = m a :=
    ⟨Function.update m e.1 (some ⟨e.2, p⟩), by simp [Memory.setNext, he],
      ⟨rfl, p, Function.update_self .., hl.update hen⟩, fun a ha => Function.update_of_ne ha ..⟩
  obtain ⟨m', hset, hl', hframe⟩ := hfront
  cases nodes with
  | nil =>
    obtain rfl : p = none := hl
    refine ⟨m', some e.1, [e], ?_, hl', .refl _, rfl, fun a ha _ => hframe a ha⟩
    simp [Memory.wordcountInsertOrdered, hset]
  | cons x nodes =>
    obtain ⟨rfl, next, hx, hrest⟩ := hl
    rw [List.length_cons] at hfuel
    rw [List.map_cons, Linked.wordcountInsertOrdered]
    cases hlt : less e.2 x.2 with
    | true =>
      refine ⟨m', some e.1, e :: x :: nodes, ?_, hl', .refl _, rfl, fun a ha _ => hframe a ha⟩
      simp [Memory.wordcountInsertOrdered, compare_eq he hx, hlt, hset]
    | false =>
      obtain ⟨prev, cur, m₁, m₂, nodes', hrun, h₁, h₂, hl₂, hperm, hmap, hframe₂⟩ :=
        insertLoop_spec less he nodes x next fuel (by omega) hx hrest hnd
      refine ⟨m₂, some x.1, x :: nodes', ?_, hl₂, (hperm.cons x).trans (.swap e x nodes),
        by simp [hmap], hframe₂⟩
      simp [Memory.wordcountInsertOrdered, compare_eq he hx, hlt, Memory.get, hx, hrun, h₁, h₂]

variable (less) in
/-- **The loop of `wordcount_sort`** with the nodes still to be inserted and those in order. -/
theorem sortLoop_spec {fuel : Nat} (rounds : Nat) :
    ∀ (m : Memory) (head sorted : Ptr) (rest done : List (Addr × WordCount)),
      rest.length < rounds → rest.length + done.length < fuel → NullEnded m head rest →
      NullEnded m sorted done → ((rest ++ done).map Prod.fst).Nodup →
      ∃ m' p nodes', Memory.sortLoop fuel less rounds m head sorted = some (m', p) ∧
        NullEnded m' p nodes' ∧ nodes'.Perm (done ++ rest) ∧
        nodes'.map Prod.snd =
          (rest.map Prod.snd).foldl (Linked.wordcountInsertOrdered less) (done.map Prod.snd) := by
  induction rounds with
  | zero => exact fun m head sorted rest done hr => absurd hr (Nat.not_lt_zero _)
  | succ rounds ih =>
    intro m head sorted rest done hrounds hfuel hrest hdone hnd
    cases rest with
    | nil =>
      obtain rfl : head = none := hrest
      exact ⟨m, sorted, done, by simp [Memory.sortLoop], hdone, by simp, rfl⟩
    | cons x rest =>
      obtain ⟨rfl, next, hx, hrest⟩ := hrest
      rw [List.length_cons] at hrounds hfuel
      rw [List.cons_append, List.map_cons, List.map_append] at hnd
      obtain ⟨hxn, hnd'⟩ := List.nodup_cons.mp hnd
      rw [List.mem_append, not_or] at hxn
      have hx₁ : Function.update m x.1 (some ⟨x.2, none⟩) x.1 = some ⟨x.2, none⟩ :=
        Function.update_self ..
      obtain ⟨m₂, sorted₂, done₂, hins, hdone₂, hperm₂, hmap₂, hframe⟩ :=
        wordcountInsertOrdered_spec less hx₁ (hdone.update hxn.2)
          (List.nodup_cons.mpr ⟨hxn.2, hnd'.of_append_right⟩) (by omega : done.length < fuel)
      have hrest₂ : NullEnded m₂ next rest := hrest.congr fun a ha => by
        have hax : a ≠ x.1 := fun heq => hxn.1 (heq ▸ ha)
        have hda : a ∉ done.map Prod.fst := List.disjoint_of_nodup_append hnd' ha
        rw [hframe a hax hda, Function.update_of_ne hax]
      have hperm' : (rest ++ done₂).Perm (x :: rest ++ done) :=
        (hperm₂.append_left rest).trans List.perm_middle
      obtain ⟨m', p, nodes', hrun, hl', hperm, hmap⟩ := ih m₂ next sorted₂ rest done₂ (by omega)
        (by rw [hperm₂.length_eq, List.length_cons]; omega) hrest₂ hdone₂
        ((hperm'.map Prod.fst).nodup_iff.mpr (by simpa using hnd))
      refine ⟨m', p, nodes', ?_, hl', ?_, by rw [hmap, hmap₂]; rfl⟩
      · have hset : m.setNext (some x.1) none =
            some (Function.update m x.1 (some ⟨x.2, none⟩)) := by simp [Memory.setNext, hx]
        simp [Memory.sortLoop, Memory.get, hx, hset, hins, hrun]
      · exact hperm.trans ((hperm₂.append_right rest).trans List.perm_middle.symm)

/-- **`wordcount_sort` on nodes in memory.** It ends, and `*wclist` is a list of the same nodes that
ends with `NULL`, in order. -/
theorem wordcountSort_nullEnded (hless : StrictWeak less) (hl : NullEnded m p nodes)
    (hnd : (nodes.map Prod.fst).Nodup) : ∀ fuel, nodes.length < fuel →
      ∃ m' p' nodes', m.wordcountSort fuel less p = some (m', p') ∧ NullEnded m' p' nodes' ∧
        nodes'.Perm nodes ∧ Ordered (nodeLess less) nodes' := by
  intro fuel hfuel
  obtain ⟨m', p', nodes', hrun, hl', hperm, hmap⟩ := sortLoop_spec less fuel m p none
    nodes [] hfuel hfuel hl rfl (by simpa using hnd)
  obtain ⟨l, hsort, -, hord⟩ := Linked.wordcountSort_spec hless (nodes.map Prod.snd)
  refine ⟨m', p', nodes', hrun, hl', by simpa using hperm, ?_⟩
  obtain rfl := Option.some.inj hsort
  have hsorted : Ordered less (nodes'.map Prod.snd) := hmap ▸ hord
  exact List.pairwise_map.mp hsorted

/-- A list of two nodes, at `1` and `2`, the greater one first. -/
def twoNodes : Memory := fun a =>
  [none, some ⟨⟨bytes "b", 2⟩, some 2⟩, some ⟨⟨bytes "a", 1⟩, none⟩].getD a none

/-- The two nodes change places. -/
theorem wordcountSort_nullEnded_two :
    NullEnded twoNodes (some 1) [(1, ⟨bytes "b", 2⟩), (2, ⟨bytes "a", 1⟩)] ∧
    ∀ fuel, 2 < fuel →
      ∃ m' p' nodes', twoNodes.wordcountSort fuel lessCount (some 1) = some (m', p') ∧
        NullEnded m' p' nodes' ∧ nodes'.Perm [(1, ⟨bytes "b", 2⟩), (2, ⟨bytes "a", 1⟩)] ∧
        Ordered (nodeLess lessCount) nodes' := by
  have hl : NullEnded twoNodes (some 1) [(1, ⟨bytes "b", 2⟩), (2, ⟨bytes "a", 1⟩)] :=
    ⟨rfl, _, rfl, rfl, _, rfl, rfl⟩
  exact ⟨hl, wordcountSort_nullEnded lessCount_strictWeak hl (by decide)⟩

end SystemProgramming.Words.Linked
