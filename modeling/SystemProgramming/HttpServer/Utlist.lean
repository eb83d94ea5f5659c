import Mathlib.Data.List.Nodup
import Mathlib.Logic.Function.Basic

/-!
# Doubly linked lists

The macros `DL_APPEND2` and `DL_DELETE2` of `HTTP_Server/utlist.h`, on a heap of nodes. The `prev`
of the first node is the last node, and the `next` of the last node is `NULL`. A macro that follows
a pointer to no node gives `none`. The arguments of a macro are expressions, so `dlDelete` takes
`del` as a function of the variable `head`.

* `dlAppend_spec`: appending adds a node at the end.
* `dlDelete_head_spec`: `DL_DELETE(head, head)` removes the first node.
-/

namespace SystemProgramming.HttpServer

/-- An address. A pointer is an `Option Addr`, with `none` for `NULL`. -/
abbrev Addr := Nat

/-- A node, with what it carries. -/
structure Node (β : Type) where
  payload : β
  next : Option Addr
  prev : Option Addr

/-- The nodes that are allocated. -/
abbrev Heap (β : Type) := Addr → Option (Node β)

variable {β : Type}

namespace Heap

/-- `*p`. -/
def get (h : Heap β) (p : Option Addr) : Option (Node β) := p.bind h

/-- An assignment to a field of `*p`. -/
def modify (h : Heap β) (p : Option Addr) (f : Node β → Node β) : Option (Heap β) :=
  p.bind fun a => (h a).map fun n => Function.update h a (some (f n))

/-- `p->prev = q`. -/
def setPrev (h : Heap β) (p q : Option Addr) : Option (Heap β) :=
  h.modify p fun n => { n with prev := q }

/-- `p->next = q`. -/
def setNext (h : Heap β) (p q : Option Addr) : Option (Heap β) :=
  h.modify p fun n => { n with next := q }

end Heap

/-- `DL_APPEND2`: the heap and `head` afterwards. -/
def dlAppend (h : Heap β) (head : Option Addr) (add : Addr) : Option (Heap β × Option Addr) :=
  if head.isSome then do
    let h ← h.setPrev (some add) (← h.get head).prev
    let h ← h.setNext (← h.get head).prev (some add)
    let h ← h.setPrev head (some add)
    let h ← h.setNext (some add) none
    return (h, head)
  else do
    let head := some add
    let h ← h.setPrev head head
    let h ← h.setNext head none
    return (h, head)

/-- `DL_DELETE2`: the heap and `head` afterwards. -/
def dlDelete (h : Heap β) (head : Option Addr) (del : Option Addr → Option Addr) :
    Option (Heap β × Option Addr) := do
  if (← h.get (del head)).prev = none then failure
  else if (← h.get (del head)).prev = del head then return (h, none)
  else if del head = head then
    let h ← h.setPrev (← h.get (del head)).next (← h.get (del head)).prev
    return (h, (← h.get (del head)).next)
  else
    let h ← h.setNext (← h.get (del head)).prev (← h.get (del head)).next
    if (← h.get (del head)).next ≠ none then
      let h ← h.setPrev (← h.get (del head)).next (← h.get (del head)).prev
      return (h, head)
    else
      let h ← h.setPrev head (← h.get (del head)).prev
      return (h, head)

/-! ## Lists -/

/-- The address of the node at index `i`. -/
def addr (nodes : List (Addr × β)) (i : Nat) : Option Addr := nodes[i]?.map Prod.fst

/-- **The list that starts at `head`** is `nodes`: every node points to the next one, the last to
`NULL`, and back to the one before, the first to the last. -/
structure IsDll (h : Heap β) (head : Option Addr) (nodes : List (Addr × β)) : Prop where
  nodup : (nodes.map Prod.fst).Nodup
  head_eq : head = addr nodes 0
  cell : ∀ i a b, nodes[i]? = some (a, b) → h a =
    some ⟨b, addr nodes (i + 1), addr nodes (if i = 0 then nodes.length - 1 else i - 1)⟩

variable {h : Heap β} {head : Option Addr} {nodes : List (Addr × β)}

theorem isDll_nil (h : Heap β) : IsDll h none [] :=
  ⟨List.nodup_nil, rfl, fun i a b hi => by simp at hi⟩

theorem mem_of_getElem? {i : Nat} {a : Addr} {b : β} (hi : nodes[i]? = some (a, b)) :
    a ∈ nodes.map Prod.fst :=
  List.mem_map.mpr ⟨(a, b), List.mem_of_getElem? hi, rfl⟩

/-- A node stands at one index only. -/
theorem IsDll.index_eq (hd : IsDll h head nodes) {i j : Nat} {a : Addr} {b c : β}
    (hi : nodes[i]? = some (a, b)) (hj : nodes[j]? = some (a, c)) : i = j := by
  have hi' : (nodes.map Prod.fst)[i]? = some a := by rw [List.getElem?_map, hi]; rfl
  have hj' : (nodes.map Prod.fst)[j]? = some a := by rw [List.getElem?_map, hj]; rfl
  obtain ⟨hlt, -⟩ := List.getElem?_eq_some_iff.mp hi'
  exact (List.getElem?_inj hlt hd.nodup).mp (hi'.trans hj'.symm)

/-- Only the nodes of the list matter. -/
theorem IsDll.congr {h' : Heap β} (hd : IsDll h head nodes)
    (heq : ∀ a ∈ nodes.map Prod.fst, h' a = h a) : IsDll h' head nodes :=
  ⟨hd.nodup, hd.head_eq, fun i a b hi => by
    rw [heq a (mem_of_getElem? hi)]
    exact hd.cell i a b hi⟩

theorem IsDll.isSome (hd : IsDll h head nodes) {a : Addr} (ha : a ∈ nodes.map Prod.fst) :
    (h a).isSome = true := by
  obtain ⟨⟨a, b⟩, hmem, rfl⟩ := List.mem_map.mp ha
  obtain ⟨i, hi⟩ := List.getElem?_of_mem hmem
  rw [hd.cell i a b hi]
  rfl

/-! ## Assignments -/

theorem get_some {a : Addr} : h.get (some a) = h a := rfl

theorem modify_some {a : Addr} (ha : (h a).isSome = true) (f : Node β → Node β) :
    ∃ h', h.modify (some a) f = some h' ∧
      ∀ x, h' x = if x = a then (h a).map f else h x := by
  obtain ⟨n, hn⟩ := Option.isSome_iff_exists.mp ha
  refine ⟨Function.update h a (some (f n)), ?_, fun x => ?_⟩
  · rw [Heap.modify, Option.bind_some, hn, Option.map_some]
  · rw [Function.update_apply, hn]
    rfl

/-- **`DL_APPEND` to an empty list.** -/
theorem dlAppend_nil {add : Addr} {n : Node β} (hadd : h add = some n) :
    ∃ h', dlAppend h none add = some (h', some add) ∧
      ∀ x, h' x = if x = add then some ⟨n.payload, none, some add⟩ else h x := by
  obtain ⟨h₁, e₁, p₁⟩ := modify_some (h := h) (a := add) (by simp [hadd])
    fun n => { n with prev := some add }
  obtain ⟨h₂, e₂, p₂⟩ := modify_some (h := h₁) (a := add) (by simp [p₁, hadd])
    fun n => { n with next := none }
  refine ⟨h₂, ?_, fun x => ?_⟩
  · simp [dlAppend, Heap.setPrev, Heap.setNext, e₁, e₂]
  · rw [p₂]
    split_ifs with hx
    · simp [p₁, hadd]
    · rw [p₁, if_neg hx]

/-- **`DL_APPEND` to a list with a first and a last node.** -/
theorem dlAppend_cons {add first last : Addr} {n c : Node β} (hadd : h add = some n)
    (hfirst : h first = some c) (hprev : c.prev = some last) (hlast : (h last).isSome = true)
    (hne : first ≠ add) (hne' : last ≠ add) :
    ∃ h', dlAppend h (some first) add = some (h', some first) ∧ ∀ x, h' x =
      if x = add then some ⟨n.payload, none, some last⟩
      else (h x).map fun c => ⟨c.payload, if x = last then some add else c.next,
        if x = first then some add else c.prev⟩ := by
  obtain ⟨h₁, e₁, p₁⟩ := modify_some (h := h) (a := add) (by simp [hadd])
    fun n => { n with prev := some last }
  obtain ⟨h₂, e₂, p₂⟩ := modify_some (h := h₁) (a := last) (by rw [p₁, if_neg hne']; exact hlast)
    fun n => { n with next := some add }
  obtain ⟨h₃, e₃, p₃⟩ := modify_some (h := h₂) (a := first) (by
    rw [p₂]
    split_ifs
    · simpa [p₁, hne'] using hlast
    · simp [p₁, hne, hfirst]) fun n => { n with prev := some add }
  obtain ⟨h₄, e₄, p₄⟩ := modify_some (h := h₃) (a := add)
    (by simp [p₃, p₂, p₁, hne.symm, hne'.symm, hadd]) fun n => { n with next := none }
  have hfirst₁ : h₁ first = some c := by rw [p₁, if_neg hne, hfirst]
  refine ⟨h₄, ?_, fun x => ?_⟩
  · simp [dlAppend, Heap.setPrev, Heap.setNext, get_some, hfirst, hprev, e₁, hfirst₁, e₂, e₃, e₄]
  · rw [p₄]
    by_cases hx : x = add
    · simp [hx, p₃, p₂, p₁, hne.symm, hne'.symm, hadd]
    · have hold : h₁ x = h x := by rw [p₁, if_neg hx]
      rw [if_neg hx, if_neg hx, p₃]
      by_cases hfx : x = first
      · by_cases hlx : x = last
        · simp [← hfx, ← hlx, p₂, hold, Option.map_map, Function.comp_def]
        · simp [← hfx, p₂, hlx, hold]
      · by_cases hlx : x = last
        · simp [hfx, ← hlx, p₂, hold]
        · simp [hfx, hlx, p₂, hold]

/-- **`DL_DELETE(head, head)`** on a list with a second node. -/
theorem dlDelete_cons {first second last : Addr} {c : Node β} (hfirst : h first = some c)
    (hprev : c.prev = some last) (hnext : c.next = some second) (hne : last ≠ first)
    (hne' : second ≠ first) (hsecond : (h second).isSome = true) :
    ∃ h', dlDelete h (some first) id = some (h', some second) ∧ ∀ x, h' x =
      if x = second then (h second).map fun c => { c with prev := some last } else h x := by
  obtain ⟨h₁, e₁, p₁⟩ := modify_some hsecond fun c => { c with prev := some last }
  refine ⟨h₁, ?_, p₁⟩
  simp [dlDelete, Heap.setPrev, get_some, hfirst, hprev, hnext, hne, e₁, p₁, hne'.symm]

theorem dlDelete_single {first : Addr} {c : Node β} (hfirst : h first = some c)
    (hprev : c.prev = some first) : dlDelete h (some first) id = some (h, none) := by
  simp [dlDelete, get_some, hfirst, hprev]

/-! ## What the macros do to a list -/

theorem addr_eq_some {i : Nat} {a : Addr} {b : β} (hi : nodes[i]? = some (a, b)) :
    addr nodes i = some a := by
  rw [addr, hi]
  rfl

/-- The node at an index of a list. -/
theorem exists_getElem? {i : Nat} (hi : i < nodes.length) : ∃ a b, nodes[i]? = some (a, b) :=
  ⟨nodes[i].1, nodes[i].2, List.getElem?_eq_getElem hi⟩

theorem addr_append_left {i : Nat} (hi : i < nodes.length) (ys : List (Addr × β)) :
    addr (nodes ++ ys) i = addr nodes i := by
  rw [addr, addr, List.getElem?_append_left hi]

theorem addr_append_length (a : Addr) (b : β) :
    addr (nodes ++ [(a, b)]) nodes.length = some a := by
  rw [addr, List.getElem?_append_right (Nat.le_refl _), Nat.sub_self]
  rfl

theorem nodup_concat {add : Addr} (hnd : (nodes.map Prod.fst).Nodup)
    (hadd : add ∉ nodes.map Prod.fst) (b : β) : ((nodes ++ [(add, b)]).map Prod.fst).Nodup := by
  rw [List.map_append]
  exact List.Nodup.append hnd (List.nodup_singleton _) (by simpa using hadd)

/-- What a node of the list points at when there is one more: only the last node's `next` and the
first node's `prev` change. -/
theorem IsDll.links_concat (hd : IsDll h head nodes) (add : Addr) (c : β) {first last a : Addr}
    {b₀ b₁ b : β} {i : Nat} (h0 : nodes[0]? = some (first, b₀))
    (h1 : nodes[nodes.length - 1]? = some (last, b₁)) (hi : nodes[i]? = some (a, b)) :
    (if a = last then some add else addr nodes (i + 1)) = addr (nodes ++ [(add, c)]) (i + 1) ∧
      (if a = first then some add
        else addr nodes (if i = 0 then nodes.length - 1 else i - 1)) =
        addr (nodes ++ [(add, c)]) (if i = 0 then nodes.length else i - 1) := by
  have hlt : i < nodes.length := (List.getElem?_eq_some_iff.mp hi).1
  refine ⟨?_, ?_⟩
  · rcases Nat.lt_or_ge (i + 1) nodes.length with hlt' | hge'
    · have hne : a ≠ last := by
        rintro rfl
        have := hd.index_eq hi h1
        omega
      rw [if_neg hne, addr_append_left hlt']
    · have hilast : i = nodes.length - 1 := by omega
      rw [hilast, h1] at hi
      have hlast : a = last := (Prod.mk.inj (Option.some.inj hi)).1.symm
      rw [if_pos hlast, show i + 1 = nodes.length by omega, addr_append_length]
  · rcases Nat.eq_zero_or_pos i with rfl | hpos
    · rw [h0] at hi
      have hfirst : a = first := (Prod.mk.inj (Option.some.inj hi)).1.symm
      rw [if_pos hfirst, if_pos rfl, addr_append_length]
    · have hfirst : a ≠ first := by
        rintro rfl
        have := hd.index_eq hi h0
        omega
      have hi0 : i ≠ 0 := Nat.ne_of_gt hpos
      rw [if_neg hfirst, if_neg hi0, if_neg hi0, addr_append_left (by omega)]

/-- The list with a node more, in a heap that `DL_APPEND` leaves. -/
theorem IsDll.concat (hd : IsDll h head nodes) {add first last : Addr} {b₀ b₁ c : β} {h' : Heap β}
    (hadd : add ∉ nodes.map Prod.fst) (h0 : nodes[0]? = some (first, b₀))
    (h1 : nodes[nodes.length - 1]? = some (last, b₁))
    (hx : ∀ x, h' x = if x = add then some ⟨c, none, some last⟩
      else (h x).map fun c => ⟨c.payload, if x = last then some add else c.next,
        if x = first then some add else c.prev⟩) :
    IsDll h' (some first) (nodes ++ [(add, c)]) := by
  have hlen : 0 < nodes.length := (List.getElem?_eq_some_iff.mp h0).1
  have hlast : (nodes ++ [(add, c)]).length - 1 = nodes.length := by simp
  refine ⟨nodup_concat hd.nodup hadd c, ?_, fun i a b hi => ?_⟩
  · rw [addr_append_left hlen, addr_eq_some h0]
  · rw [hx, hlast]
    rcases Nat.lt_or_ge i nodes.length with hlt | hge
    · rw [List.getElem?_append_left hlt] at hi
      have hne : a ≠ add := fun heq => hadd (heq ▸ mem_of_getElem? hi)
      obtain ⟨hnext, hprev⟩ := hd.links_concat add c h0 h1 hi
      rw [if_neg hne, hd.cell i a b hi, Option.map_some]
      simp only [hnext, hprev]
    · -- the new node
      have hlt' := (List.getElem?_eq_some_iff.mp hi).1
      rw [List.length_append, List.length_singleton] at hlt'
      obtain rfl : i = nodes.length := by omega
      rw [List.getElem?_append_right hge, Nat.sub_self] at hi
      obtain ⟨rfl, rfl⟩ := Prod.mk.inj (Option.some.inj hi)
      rw [if_pos rfl, if_neg (Nat.ne_of_gt hlen), addr_append_left (Nat.sub_lt hlen Nat.one_pos),
        addr_eq_some h1, addr, List.getElem?_eq_none (by simp)]
      rfl

/-- **`DL_APPEND` adds a node at the end**, and touches no other nodes. -/
theorem dlAppend_spec {add : Addr} {n : Node β} (hd : IsDll h head nodes)
    (hadd : add ∉ nodes.map Prod.fst) (hn : h add = some n) :
    ∃ h' head', dlAppend h head add = some (h', head') ∧
      IsDll h' head' (nodes ++ [(add, n.payload)]) ∧
      ∀ x, x ∉ nodes.map Prod.fst → x ≠ add → h' x = h x := by
  rcases Nat.eq_zero_or_pos nodes.length with hlen | hlen
  · -- the new node is the whole list
    obtain rfl := List.length_eq_zero_iff.mp hlen
    obtain ⟨h', he, hx⟩ := dlAppend_nil hn
    rw [hd.head_eq]
    refine ⟨h', _, he, ⟨nodup_concat hd.nodup hadd _, rfl, fun i a b hi => ?_⟩,
      fun x _ hne => by rw [hx, if_neg hne]⟩
    obtain ⟨rfl, hab⟩ : i = 0 ∧ (add, n.payload) = (a, b) := by
      cases i with
      | zero => exact ⟨rfl, by simpa using hi⟩
      | succ i => simp at hi
    obtain ⟨rfl, rfl⟩ := Prod.mk.inj hab
    rw [hx, if_pos rfl]
    rfl
  · obtain ⟨first, b₀, h0⟩ := exists_getElem? hlen
    obtain ⟨last, b₁, h1⟩ := exists_getElem? (Nat.sub_lt hlen Nat.one_pos)
    have hcell := hd.cell 0 first b₀ h0
    rw [if_pos rfl, addr_eq_some h1] at hcell
    have hlast : (h last).isSome = true := hd.isSome (mem_of_getElem? h1)
    obtain ⟨h', he, hx⟩ := dlAppend_cons hn hcell rfl hlast
      (fun heq => hadd (heq ▸ mem_of_getElem? h0)) (fun heq => hadd (heq ▸ mem_of_getElem? h1))
    rw [hd.head_eq, addr_eq_some h0]
    refine ⟨h', _, he, hd.concat hadd h0 h1 hx, fun x hmem hne => ?_⟩
    have hxlast : x ≠ last := fun heq => hmem (heq ▸ mem_of_getElem? h1)
    have hxfirst : x ≠ first := fun heq => hmem (heq ▸ mem_of_getElem? h0)
    rw [hx, if_neg hne]
    simp only [if_neg hxlast, if_neg hxfirst]
    cases h x <;> rfl

/-- **`DL_DELETE(head, head)` removes the first node**, and touches no nodes but those of the
rest. -/
theorem dlDelete_head_spec {a : Addr} {b : β} (hd : IsDll h head ((a, b) :: nodes)) :
    ∃ h' head', dlDelete h head id = some (h', head') ∧ IsDll h' head' nodes ∧
      ∀ x, x ∉ nodes.map Prod.fst → h' x = h x := by
  have hcell := hd.cell 0 a b rfl
  rw [hd.head_eq, addr_eq_some (a := a) (b := b) rfl]
  cases nodes with
  | nil => exact ⟨h, none, dlDelete_single hcell rfl, isDll_nil h, fun x _ => rfl⟩
  | cons p rest =>
    obtain ⟨second, b₁⟩ := p
    obtain ⟨last, b₂, h2⟩ := exists_getElem?
      (show rest.length < ((second, b₁) :: rest).length by simp)
    have hnodup := hd.nodup
    rw [List.map_cons, List.nodup_cons] at hnodup
    have hlast : addr ((a, b) :: (second, b₁) :: rest) (rest.length + 1) = some last :=
      addr_eq_some (b := b₂) h2
    rw [if_pos rfl, show ((a, b) :: (second, b₁) :: rest).length - 1 = rest.length + 1 from rfl,
      hlast] at hcell
    have hlast_ne : last ≠ a := fun heq => hnodup.1 (heq ▸ mem_of_getElem? h2)
    have hsecond_ne : second ≠ a := fun heq => hnodup.1 (heq ▸ List.mem_cons_self)
    obtain ⟨h', he, hx⟩ := dlDelete_cons hcell rfl rfl hlast_ne hsecond_ne (hd.isSome (by simp))
    refine ⟨h', _, he, ⟨hnodup.2, rfl, fun i c d hi => ?_⟩, fun x hmem => ?_⟩
    · have hc := hd.cell (i + 1) c d (by rw [List.getElem?_cons_succ, hi])
      rw [if_neg (by omega), Nat.add_sub_cancel] at hc
      rw [hx]
      cases i with
      | zero =>
        obtain ⟨rfl, rfl⟩ := Prod.mk.inj (Option.some.inj hi)
        rw [if_pos rfl, hc, if_pos rfl, Option.map_some]
        exact congrArg (fun q => some (Node.mk b₁ _ q)) (addr_eq_some h2).symm
      | succ i =>
        have hne : c ≠ second := by
          rintro rfl
          have := hd.index_eq (i := i + 2) (j := 1) hi rfl
          omega
        rw [if_neg hne, hc, if_neg (by omega)]
        rfl
    · rw [hx, if_neg]
      rintro rfl
      exact hmem (by simp)

end SystemProgramming.HttpServer
