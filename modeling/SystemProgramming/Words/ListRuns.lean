import SystemProgramming.Words.Confined
import SystemProgramming.Words.OrderedLists

/-!
# Runs of list operations

Any sequence of calls of `list.c` on one list. A call that inserts is given an element that exists
and is not in the list, and `list_remove` an element of the list: that much the callers promise. An
`ASSERT` that fails is `none`.

* `runCalls_refines`: what the calls return, and what they leave in the list, is what they return
  and leave on the sequence of the nodes.
* `insertOrdered_sort`: inserting in order, or pushing back and sorting, builds the same list.
* `sort_unique`: `list_sort` and then `list_unique` keep the first node of each kind, in order.
-/

namespace SystemProgramming.Words

open Lib

variable {α : Type}

/-- A call, with its element and the element's entry, or its address. -/
inductive ListOp (α : Type)
  | pushFront (e : Addr × α)
  | pushBack (e : Addr × α)
  | insertOrdered (e : Addr × α)
  | remove (a : Addr)
  | popFront
  | popBack
  | front
  | back
  | size
  | empty
  | max
  | min
  | reverse
  | sort
  | unique

/-- What a call returns. -/
inductive Value
  | void
  | elem (p : Ptr)
  | number (n : Nat)
  | truth (b : Bool)
  deriving DecidableEq

/-- A call, in memory. -/
def Heap.call (fuel : Nat) (less : α → α → Bool) (list : PintosList) (h : Heap α) :
    ListOp α → Option (Value × Heap α)
  | .pushFront e => (h.listPushFront list (some e.1)).map fun h => (.void, h)
  | .pushBack e => (h.listPushBack list (some e.1)).map fun h => (.void, h)
  | .insertOrdered e => (h.listInsertOrdered fuel less list (some e.1)).map fun h => (.void, h)
  | .remove a => (h.listRemove (some a)).map fun r => (.elem r.1, r.2)
  | .popFront => (h.listPopFront list).map fun r => (.elem r.1, r.2)
  | .popBack => (h.listPopBack list).map fun r => (.elem r.1, r.2)
  | .front => (h.listFront list).map fun p => (.elem p, h)
  | .back => (h.listBack list).map fun p => (.elem p, h)
  | .size => (h.listSize fuel list).map fun n => (.number n, h)
  | .empty => (h.listEmpty list).map fun b => (.truth b, h)
  | .max => (h.listMax fuel less list).map fun p => (.elem p, h)
  | .min => (h.listMin fuel less list).map fun p => (.elem p, h)
  | .reverse => (h.listReverse fuel list).map fun h => (.void, h)
  | .sort => (h.listSort fuel less list).map fun h => (.void, h)
  | .unique => (h.listUnique fuel less list none).map fun h => (.void, h)

/-- The address of the best node, or of the tail. -/
def bestAddr (less : α → α → Bool) (tail : Addr) : List (Addr × α) → Addr
  | [] => tail
  | x :: s => (best (nodeLess less) x s).1

/-- A call, on the sequence of the nodes. -/
def callOn (less : α → α → Bool) (tail : Addr) (nodes : List (Addr × α)) :
    ListOp α → Option (Value × List (Addr × α))
  | .pushFront e => some (.void, e :: nodes)
  | .pushBack e => some (.void, nodes ++ [e])
  | .insertOrdered e => some (.void, Lib.insertOrdered (nodeLess less) e nodes)
  | .remove a =>
    let rest := (nodes.dropWhile fun x => x.1 != a).tail
    some (.elem (some (start rest tail)), nodes.takeWhile (fun x => x.1 != a) ++ rest)
  | .popFront => nodes.head?.map fun x => (.elem (some x.1), nodes.tail)
  | .popBack => nodes.getLast?.map fun x => (.elem (some x.1), nodes.dropLast)
  | .front => nodes.head?.map fun x => (.elem (some x.1), nodes)
  | .back => nodes.getLast?.map fun x => (.elem (some x.1), nodes)
  | .size => some (.number nodes.length, nodes)
  | .empty => some (.truth (nodes = []), nodes)
  | .max => some (.elem (some (bestAddr less tail nodes)), nodes)
  | .min => some (.elem (some (bestAddr (fun min e => less e min) tail nodes)), nodes)
  | .reverse => some (.void, nodes.reverse)
  | .sort => (listSort (nodeLess less) nodes).map fun nodes => (.void, nodes)
  | .unique => some (.void, (Words.unique (nodeLess less) nodes).1)

/-- What the caller of an operation promises. -/
def Fits (h : Heap α) (list : PintosList) (nodes : List (Addr × α)) : ListOp α → Prop
  | .pushFront e | .pushBack e | .insertOrdered e =>
    h.live e.1 = true ∧ h.entry e.1 = some e.2 ∧ e.1 ∉ list.elems nodes
  | .remove a => a ∈ nodes.map Prod.fst
  | _ => True

variable {h h' : Heap α} {list : PintosList} {nodes nodes' : List (Addr × α)} {fuel : Nat}
  {less : α → α → Bool}

/-- The call has done in memory what it does on the nodes, to the links only. -/
def Agrees (h : Heap α) (list : PintosList) (nodes : List (Addr × α))
    (r : Option (Value × Heap α)) : Option (Value × List (Addr × α)) → Prop
  | none => r = none
  | some (v, nodes') => ∃ h', r = some (v, h') ∧ IsList h' list nodes' ∧ h'.live = h.live ∧
      h'.entry = h.entry ∧ nodes'.length ≤ nodes.length + 1

/-- A call that changes nothing returns what it finds. -/
theorem agrees_query {β γ : Type} (hl : IsList h list nodes) (f : γ → Value) (g : β → γ)
    (o : Option β) :
    Agrees h list nodes ((o.map g).map fun b => (f b, h)) (o.map fun b => (f (g b), nodes)) := by
  cases o with
  | none => rfl
  | some b => exact ⟨h, rfl, hl, rfl, rfl, Nat.le_succ _⟩

theorem agrees_void {r : Option (Heap α)} (hr : r = some h') (hl : IsList h' list nodes')
    (hlive : h'.live = h.live) (hentry : h'.entry = h.entry)
    (hlen : nodes'.length ≤ nodes.length + 1) :
    Agrees h list nodes (r.map fun h => (Value.void, h)) (some (.void, nodes')) :=
  ⟨h', by rw [hr]; rfl, hl, hlive, hentry, hlen⟩

/-- A node of the list, with what comes before it and behind it. -/
theorem split_at (nodes : List (Addr × α)) {a : Addr} (ha : a ∈ nodes.map Prod.fst) :
    ∃ x, x.1 = a ∧ nodes = nodes.takeWhile (fun x => x.1 != a) ++
      x :: (nodes.dropWhile fun x => x.1 != a).tail := by
  obtain ⟨y, hy, rfl⟩ := List.mem_map.mp ha
  have hne : nodes.dropWhile (fun x => x.1 != y.1) ≠ [] := fun hnil => by
    have := List.dropWhile_eq_nil_iff.mp hnil y hy
    simp at this
  obtain ⟨x, rest, hrest⟩ := List.exists_cons_of_ne_nil hne
  have hx := List.head?_dropWhile_not (fun x : Addr × α => x.1 != y.1) nodes
  rw [hrest] at hx
  refine ⟨x, by simpa using hx, ?_⟩
  conv_lhs => rw [← List.takeWhile_append_dropWhile (p := fun x => x.1 != y.1) (l := nodes), hrest]
  rw [hrest]
  rfl

/-- **One call.** -/
theorem call_agrees (hless : StrictWeak less) (hl : IsList h list nodes)
    (hfuel : nodes.length < fuel) (op : ListOp α) (hf : Fits h list nodes op) :
    Agrees h list nodes (h.call fuel less list op) (callOn less list.tail nodes op) := by
  cases op with
  | pushFront e =>
    obtain ⟨hlive, hentry, hnew⟩ := hf
    obtain ⟨h', hrun, hl', hs⟩ := listPushFront_isList hl hlive hentry hnew
    exact agrees_void hrun hl' hs.live hs.entry (Nat.le_refl _)
  | pushBack e =>
    obtain ⟨hlive, hentry, hnew⟩ := hf
    obtain ⟨h', hrun, hl', hs⟩ := listPushBack_isList hl hlive hentry hnew
    exact agrees_void hrun hl' hs.live hs.entry (by rw [List.length_append]; rfl)
  | insertOrdered e =>
    obtain ⟨hlive, hentry, hnew⟩ := hf
    obtain ⟨h', hrun, hl', hs⟩ := listInsertOrdered_isList less hl hlive hentry hnew hfuel
    exact agrees_void hrun hl' hs.live hs.entry
      (Nat.le_of_eq (insertOrdered_perm e nodes).length_eq)
  | remove a =>
    obtain ⟨x, rfl, hsplit⟩ := split_at nodes hf
    obtain ⟨h', hrun, hl', hs⟩ := listRemove_isList (hsplit ▸ hl)
    have hlen := congrArg List.length hsplit
    rw [List.length_append, List.length_cons] at hlen
    refine ⟨h', by rw [Heap.call, hrun]; rfl, hl', hs.live, hs.entry, ?_⟩
    rw [List.length_append]
    omega
  | popFront =>
    cases nodes with
    | nil => simp [Agrees, callOn, Heap.call, Heap.listPopFront, listFront_spec hl]
    | cons x nodes =>
      obtain ⟨h', hrun, hl', hs⟩ := listPopFront_isList hl
      refine ⟨h', by rw [Heap.call, hrun]; rfl, hl', hs.live, hs.entry, ?_⟩
      rw [List.tail_cons, List.length_cons]
      omega
  | popBack =>
    rcases List.eq_nil_or_concat' nodes with rfl | ⟨init, x, rfl⟩
    · simp [Agrees, callOn, Heap.call, Heap.listPopBack, listBack_spec hl]
    · obtain ⟨h', hrun, hl', hs⟩ := listPopBack_isList hl
      rw [callOn, List.getLast?_concat, List.dropLast_concat]
      refine ⟨h', by rw [Heap.call, hrun]; rfl, hl', hs.live, hs.entry, ?_⟩
      rw [List.length_append]
      omega
  | front =>
    rw [Heap.call, listFront_spec hl]
    exact agrees_query hl .elem _ _
  | back =>
    rw [Heap.call, listBack_spec hl]
    exact agrees_query hl .elem _ _
  | size =>
    rw [Heap.call, listSize_spec hl hfuel]
    exact agrees_query hl .number id (some nodes.length)
  | empty =>
    rw [Heap.call, listEmpty_spec hl]
    exact agrees_query hl .truth id (some (decide (nodes = [])))
  | max =>
    rw [Heap.call, Heap.listMax, listBest_spec less hl hfuel]
    cases nodes <;> exact agrees_query hl .elem id (some _)
  | min =>
    rw [Heap.call, Heap.listMin, listBest_spec _ hl hfuel]
    cases nodes <;> exact agrees_query hl .elem id (some _)
  | reverse =>
    obtain ⟨h', hrun, hl', hs⟩ := listReverse_isList hl hfuel
    exact agrees_void hrun hl' hs.live hs.entry (by rw [List.length_reverse]; omega)
  | sort =>
    obtain ⟨sorted, hsort, hperm, -⟩ := listSort_spec (nodeLess_strictWeak hless) nodes
    obtain ⟨h', hrun, hl'⟩ := sortLoop_run less hless fuel h nodes hfuel hl sorted
      (sortLoop_mono hfuel hsort)
    have hs := listSort_sameBut less hl hrun
    rw [callOn, hsort]
    exact agrees_void hrun hl' hs.live hs.entry (by rw [hperm.length_eq]; omega)
  | unique =>
    obtain ⟨h', hrun, hl', -, hlive, hentry⟩ := listUnique_isList less (D := []) none hl trivial
      hfuel
    refine agrees_void hrun hl' hlive hentry ?_
    have hsub : (Words.unique (nodeLess less) nodes).1.Sublist nodes := (unique_sublist nodes).1
    exact Nat.le_trans hsub.length_le (Nat.le_succ _)

/-! ## Runs -/

/-- Calls one after the other, in memory: what they return, and the memory. -/
def runCalls (fuel : Nat) (less : α → α → Bool) (list : PintosList) :
    List (ListOp α) → Heap α → Option (List Value × Heap α)
  | [], h => some ([], h)
  | op :: ops, h => do
    let r ← h.call fuel less list op
    let s ← runCalls fuel less list ops r.2
    return (r.1 :: s.1, s.2)

/-- Calls one after the other, on the sequence of the nodes. -/
def runOn (less : α → α → Bool) (tail : Addr) :
    List (ListOp α) → List (Addr × α) → Option (List Value × List (Addr × α))
  | [], nodes => some ([], nodes)
  | op :: ops, nodes => do
    let r ← callOn less tail nodes op
    let s ← runOn less tail ops r.2
    return (r.1 :: s.1, s.2)

/-- The callers keep their promises, as long as no `ASSERT` has failed. -/
def AllFit (h : Heap α) (less : α → α → Bool) (list : PintosList) :
    List (ListOp α) → List (Addr × α) → Prop
  | [], _ => True
  | op :: ops, nodes => Fits h list nodes op ∧
      ∀ r ∈ callOn less list.tail nodes op, AllFit h less list ops r.2

theorem Fits.congr {op : ListOp α} (hf : Fits h list nodes op) (hlive : h'.live = h.live)
    (hentry : h'.entry = h.entry) : Fits h' list nodes op := by
  have heq : Fits h' list nodes op = Fits h list nodes op := by
    cases op <;> simp only [Fits, hlive, hentry]
  exact heq ▸ hf

theorem AllFit.congr (ops : List (ListOp α)) (hf : AllFit h less list ops nodes)
    (hlive : h'.live = h.live) (hentry : h'.entry = h.entry) :
    AllFit h' less list ops nodes := by
  induction ops generalizing nodes with
  | nil => trivial
  | cons op ops ih => exact ⟨hf.1.congr hlive hentry, fun r hr => ih (hf.2 r hr)⟩

/-- **Every run of calls** on a well-formed list returns what it returns on the sequence of its
nodes, and leaves a well-formed list of the nodes that are left there. It stops at a failing
`ASSERT` exactly if that one does. -/
theorem runCalls_refines (hless : StrictWeak less) (ops : List (ListOp α)) {h : Heap α}
    {list : PintosList} {nodes : List (Addr × α)} (hl : IsList h list nodes)
    (hfuel : nodes.length + ops.length < fuel) (hf : AllFit h less list ops nodes) :
    (runCalls fuel less list ops h = none ∧ runOn less list.tail ops nodes = none) ∨
      ∃ vs h' nodes', runCalls fuel less list ops h = some (vs, h') ∧
        runOn less list.tail ops nodes = some (vs, nodes') ∧ IsList h' list nodes' := by
  induction ops generalizing h nodes with
  | nil => exact Or.inr ⟨[], h, nodes, rfl, rfl, hl⟩
  | cons op ops ih =>
    rw [List.length_cons] at hfuel
    have hcall := call_agrees hless hl (by omega : nodes.length < fuel) op hf.1
    cases hon : callOn less list.tail nodes op with
    | none =>
      rw [hon] at hcall
      refine Or.inl ⟨?_, ?_⟩
      · rw [runCalls, show h.call fuel less list op = none from hcall]
        rfl
      · rw [runOn, hon]
        rfl
    | some r =>
      rw [hon] at hcall
      obtain ⟨h₁, hrun, hl₁, hlive, hentry, hlen⟩ := hcall
      rcases ih hl₁ (by omega) ((hf.2 r hon).congr ops hlive hentry) with
        ⟨hc, ho⟩ | ⟨vs, h', nodes', hc, ho, hl'⟩
      · refine Or.inl ⟨?_, ?_⟩
        · simp only [runCalls, hrun, Option.bind_eq_bind, Option.bind_some, hc, Option.bind_none]
        · simp only [runOn, hon, Option.bind_eq_bind, Option.bind_some, ho, Option.bind_none]
      · refine Or.inr ⟨r.1 :: vs, h', nodes', ?_, ?_, hl'⟩
        · simp only [runCalls, hrun, Option.bind_eq_bind, Option.bind_some, hc]
          rfl
        · simp only [runOn, hon, Option.bind_eq_bind, Option.bind_some, ho]
          rfl

/-- The two nodes of `twoNodes`. -/
theorem twoNodes_isList :
    IsList twoNodes ⟨0, 1⟩ [(2, ⟨bytes "b", 2⟩), (3, ⟨bytes "a", 1⟩)] :=
  ⟨by decide, by decide, rfl, rfl,
    .cons_cons ⟨rfl, rfl⟩ (.cons_cons ⟨rfl, rfl⟩ (.cons_cons ⟨rfl, rfl⟩ (.singleton 1))),
    by simp [twoNodes]⟩

/-- The front is taken off the reversed list and pushed back. -/
theorem runCalls_refines_two :
    ∃ vs h' nodes', runCalls 10 lessCount ⟨0, 1⟩
        [.reverse, .popFront, .pushBack (3, ⟨bytes "a", 1⟩)] twoNodes = some (vs, h') ∧
      vs = [.void, .elem (some 3), .void] ∧
      nodes' = [(2, ⟨bytes "b", 2⟩), (3, ⟨bytes "a", 1⟩)] ∧ IsList h' ⟨0, 1⟩ nodes' := by
  have hfit : AllFit twoNodes lessCount ⟨0, 1⟩
      [.reverse, .popFront, .pushBack (3, ⟨bytes "a", 1⟩)]
      [(2, ⟨bytes "b", 2⟩), (3, ⟨bytes "a", 1⟩)] := by
    refine ⟨trivial, fun r hr => ?_⟩
    obtain rfl := Option.some.inj hr
    refine ⟨trivial, fun r hr => ?_⟩
    obtain rfl := Option.some.inj hr
    exact ⟨⟨rfl, rfl, by decide⟩, fun _ _ => trivial⟩
  rcases runCalls_refines lessCount_strictWeak _ twoNodes_isList
      (by decide : 2 + 3 < 10) hfit with
    ⟨-, ho⟩ | ⟨vs, h', nodes', hc, ho, hl'⟩
  · exact absurd ho (by simp [runOn, callOn])
  · obtain ⟨rfl, rfl⟩ := Prod.mk.inj (Option.some.inj ho)
    exact ⟨_, h', _, hc, rfl, rfl, hl'⟩

/-! ## Two ways to an ordered list -/

/-- **New elements, one after the other.** -/
theorem foldlM_isList (fuel : Nat) {f : Heap α → Addr × α → Option (Heap α)}
    {g : List (Addr × α) → Addr × α → List (Addr × α)}
    (hf : ∀ h nodes e, IsList h list nodes → h.live e.1 = true → h.entry e.1 = some e.2 →
      e.1 ∉ list.elems nodes → nodes.length < fuel →
      ∃ h', f h e = some h' ∧ IsList h' list (g nodes e) ∧ h'.live = h.live ∧ h'.entry = h.entry)
    (hg : ∀ nodes e, (g nodes e).Perm (e :: nodes)) (new : List (Addr × α)) :
    ∀ (h : Heap α) (nodes : List (Addr × α)), IsList h list nodes →
      (list.elems (new ++ nodes)).Nodup → (∀ e ∈ new, h.live e.1 = true) →
      (∀ e ∈ new, h.entry e.1 = some e.2) → nodes.length + new.length ≤ fuel →
      ∃ h', new.foldlM f h = some h' ∧ IsList h' list (new.foldl g nodes) := by
  induction new with
  | nil => exact fun h nodes hl _ _ _ _ => ⟨h, rfl, hl⟩
  | cons e new ih =>
    intro h nodes hl hnd hlive hentry hfuel
    rw [List.length_cons] at hfuel
    obtain ⟨hlive₀, hlives⟩ := List.forall_mem_cons.mp hlive
    obtain ⟨hentry₀, hentries⟩ := List.forall_mem_cons.mp hentry
    have hperm : (new ++ g nodes e).Perm (e :: new ++ nodes) :=
      ((hg nodes e).append_left new).trans List.perm_middle
    have hnew : e.1 ∉ list.elems nodes := fun hmem => by
      have hnd' : (e.1 :: list.elems (new ++ nodes)).Nodup :=
        (List.Perm.swap ..).nodup_iff.mp hnd
      refine (List.nodup_cons.mp hnd').1 ?_
      have hsub : ∀ a ∈ list.elems nodes, a ∈ list.elems (new ++ nodes) := fun a ha => by
        simp only [PintosList.elems, List.map_append, List.mem_append, List.mem_cons] at ha ⊢
        tauto
      exact hsub _ hmem
    obtain ⟨h₁, hrun, hl₁, hlive₁, hentry₁⟩ := hf h nodes e hl hlive₀ hentry₀ hnew (by omega)
    obtain ⟨h', hrun', hl'⟩ := ih h₁ (g nodes e) hl₁
      ((elems_perm list hperm).nodup_iff.mpr hnd) (by rwa [hlive₁]) (by rwa [hentry₁])
      (by rw [(hg nodes e).length_eq, List.length_cons]; omega)
    refine ⟨h', ?_, hl'⟩
    rw [List.foldlM_cons, hrun]
    exact hrun'

theorem foldl_append_singleton (new nodes : List (Addr × α)) :
    new.foldl (fun l e => l ++ [e]) nodes = nodes ++ new := by
  induction new generalizing nodes with
  | nil => exact (List.append_nil nodes).symm
  | cons e new ih => rw [List.foldl_cons, ih, List.append_assoc, List.singleton_append]

/-- **Inserting in order, or pushing back and sorting**: new elements make the same list either way,
link by link, in order and with ties as they came. -/
theorem insertOrdered_sort (hless : StrictWeak less) (hl : IsList h list [])
    (hnd : (list.elems nodes).Nodup) (hlive : ∀ e ∈ nodes, h.live e.1 = true)
    (hentry : ∀ e ∈ nodes, h.entry e.1 = some e.2) (hfuel : nodes.length < fuel) :
    ∃ sorted h₁ h₂,
      nodes.foldlM (fun h e => h.listInsertOrdered fuel less list (some e.1)) h = some h₁ ∧
      ((nodes.foldlM (fun (h : Heap α) e => h.listPushBack list (some e.1)) h).bind fun h =>
        h.listSort fuel less list) = some h₂ ∧
      IsList h₁ list sorted ∧ IsList h₂ list sorted ∧
      (∀ a ∈ list.elems sorted, h₁.prev a = h₂.prev a ∧ h₁.next a = h₂.next a) ∧
      sorted.Perm nodes ∧ Ordered (nodeLess less) sorted ∧ Stable (nodeLess less) nodes sorted := by
  have hless' := nodeLess_strictWeak hless
  obtain ⟨sorted, hsort, hperm, hord⟩ := listSort_spec hless' nodes
  have hstable := listSort_stable hless' hsort
  obtain ⟨h₁, hins, hl₁⟩ := foldlM_isList fuel
    (fun h nodes e hl hlive hentry hnew hfuel => by
      obtain ⟨h', hrun, hl', hs⟩ := listInsertOrdered_isList less hl hlive hentry hnew hfuel
      exact ⟨h', hrun, hl', hs.live, hs.entry⟩)
    (fun nodes e => insertOrdered_perm e nodes) nodes h [] hl (by rwa [List.append_nil]) hlive
    hentry (by rw [List.length_nil]; omega)
  obtain ⟨h₀, hpush, hl₀⟩ := foldlM_isList fuel (g := fun l e => l ++ [e])
    (fun h nodes e hl hlive hentry hnew _ => by
      obtain ⟨h', hrun, hl', hs⟩ := listPushBack_isList hl hlive hentry hnew
      exact ⟨h', hrun, hl', hs.live, hs.entry⟩)
    (fun nodes e => List.perm_append_singleton e nodes) nodes h [] hl (by rwa [List.append_nil])
    hlive hentry (by rw [List.length_nil]; omega)
  rw [foldl_append_singleton, List.nil_append] at hl₀
  rw [show nodes.foldl (fun l e => Lib.insertOrdered (nodeLess less) e l) [] = sorted from
    insertAll_eq hless' hord hstable] at hl₁
  obtain ⟨h₂, hrun, hl₂⟩ := sortLoop_run less hless fuel h₀ nodes hfuel hl₀ sorted
    (sortLoop_mono hfuel hsort)
  refine ⟨sorted, h₁, h₂, hins, ?_, hl₁, hl₂, fun a ha => ?_, hperm, hord, hstable⟩
  · rw [hpush]
    exact hrun
  · obtain ⟨A, C, hsplit⟩ := List.append_of_mem ha
    obtain ⟨hp₁, hn₁⟩ := hl₁.links_at hsplit
    obtain ⟨hp₂, hn₂⟩ := hl₂.links_at hsplit
    exact ⟨hp₁.trans hp₂.symm, hn₁.trans hn₂.symm⟩

/-- A list of two equal entries at `2` and `3`, and an empty list. -/
def twoLists : Heap WordCount where
  prev := fun a => [none, some 3, some 0, some 2, none, some 4].getD a none
  next := fun a => [some 2, none, some 3, some 1, some 5, none].getD a none
  live := fun a => decide (a < 6)
  entry := fun a => [none, none, some ⟨bytes "a", 1⟩, some ⟨bytes "a", 1⟩].getD a none

theorem twoLists_isList :
    IsList twoLists ⟨0, 1⟩ [(2, ⟨bytes "a", 1⟩), (3, ⟨bytes "a", 1⟩)] ∧
      IsList twoLists ⟨4, 5⟩ [] :=
  ⟨⟨by decide, by decide, rfl, rfl,
    .cons_cons ⟨rfl, rfl⟩ (.cons_cons ⟨rfl, rfl⟩ (.cons_cons ⟨rfl, rfl⟩ (.singleton 1))),
    by simp [twoLists]⟩,
    ⟨by decide, by decide, rfl, rfl, .cons_cons ⟨rfl, rfl⟩ (.singleton 5), by simp⟩⟩

/-- Two equal entries, put into the empty list. -/
theorem insertOrdered_sort_two :
    ∃ (sorted : List (Addr × WordCount)) (h₁ : Heap WordCount),
      [(2, ⟨bytes "a", 1⟩), (3, ⟨bytes "a", 1⟩)].foldlM
        (fun h (e : Addr × WordCount) => h.listInsertOrdered 3 lessCount ⟨4, 5⟩ (some e.1))
        twoLists = some h₁ ∧
      IsList h₁ ⟨4, 5⟩ sorted ∧ sorted.Perm [(2, ⟨bytes "a", 1⟩), (3, ⟨bytes "a", 1⟩)] := by
  obtain ⟨sorted, h₁, -, hins, -, hl₁, -, -, hperm, -⟩ := insertOrdered_sort
    lessCount_strictWeak twoLists_isList.2
    (by decide : (PintosList.elems ⟨4, 5⟩
      [(2, (⟨bytes "a", 1⟩ : WordCount)), (3, ⟨bytes "a", 1⟩)]).Nodup)
    (by decide) (by simp [twoLists]) (by decide : 2 < 3)
  exact ⟨sorted, h₁, hins, hl₁, hperm⟩

/-! ## Sorting, and then removing duplicates -/

/-- **The first node of each kind.** `list_sort` and then `list_unique`, on a list and an empty list
for the duplicates: the list keeps the first node of each kind, ascending, and the others go to the
second list, in order. -/
theorem sort_unique (hless : StrictWeak less) {dups : PintosList} (hl : IsList h list nodes)
    (hd : IsList h dups []) (hdisj : ∀ a ∈ list.elems nodes, a ∉ dups.elems ([] : List (Addr × α)))
    (hfuel : nodes.length < fuel) :
    ∃ kept removed h', ((h.listSort fuel less list).bind fun h =>
        h.listUnique fuel less list (some dups)) = some h' ∧
      IsList h' list kept ∧ IsList h' dups removed ∧ (kept ++ removed).Perm nodes ∧
      kept.Pairwise (fun x y => nodeLess less x y = true) ∧ Ordered (nodeLess less) removed ∧
      ∀ z, kept.filter (ties (nodeLess less) z) = (nodes.filter (ties (nodeLess less) z)).take 1 ∧
        removed.filter (ties (nodeLess less) z) =
          (nodes.filter (ties (nodeLess less) z)).drop 1 := by
  have hless' := nodeLess_strictWeak hless
  obtain ⟨sorted, hsort, hperm, hord⟩ := listSort_spec hless' nodes
  have hstable := listSort_stable hless' hsort
  obtain ⟨h₁, hrun, hl₁⟩ := sortLoop_run less hless fuel h nodes hfuel hl sorted
    (sortLoop_mono hfuel hsort)
  have hs := listSort_sameBut less hl hrun
  have hd₁ : IsList h₁ dups [] := hd.frame hs fun a ha hmem => hdisj a hmem ha
  have hdisj₁ : ∀ a ∈ list.elems sorted, a ∉ dups.elems ([] : List (Addr × α)) := fun a ha =>
    hdisj a ((elems_perm list hperm).mem_iff.mp ha)
  obtain ⟨h', hrun', hl', ⟨hd', -⟩, -, -⟩ := listUnique_isList less (some dups) hl₁ ⟨hd₁, hdisj₁⟩
    (by rw [hperm.length_eq]; exact hfuel)
  refine ⟨_, _, h', ?_, hl', hd', (unique_perm sorted).trans hperm, unique_ascending hless' hord,
    hord.sublist (unique_sublist sorted).2, fun z => ?_⟩
  · rw [show h.listSort fuel less list = some h₁ from hrun]
    exact hrun'
  · rw [← hstable z]
    exact unique_filter hless' hord z

/-- Of the two equal entries one is kept. -/
theorem sort_unique_two :
    ∃ (kept removed : List (Addr × WordCount)) (h' : Heap WordCount),
      IsList h' ⟨0, 1⟩ kept ∧ IsList h' ⟨4, 5⟩ removed ∧
      (kept ++ removed).Perm [(2, ⟨bytes "a", 1⟩), (3, ⟨bytes "a", 1⟩)] ∧
      kept.filter (ties (nodeLess lessCount) (2, ⟨bytes "a", 1⟩)) = [(2, ⟨bytes "a", 1⟩)] := by
  obtain ⟨kept, removed, h', -, hl', hd', hperm, -, -, hfilter⟩ := sort_unique
    lessCount_strictWeak twoLists_isList.1 twoLists_isList.2 (by decide) (by decide : 2 < 3)
  exact ⟨kept, removed, h', hl', hd', hperm, (hfilter (2, ⟨bytes "a", 1⟩)).1⟩

end SystemProgramming.Words
