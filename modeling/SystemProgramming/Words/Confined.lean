import SystemProgramming.Words.Deque

/-!
# What `list_sort` may change

A set of elements is closed if no link leads out of it. A function of `list.c` that is called with
pointers into a closed set follows links only, so it writes to elements of the set only, and the
pointers it writes lead into the set: it is confined to it. The elements of a list are closed.

* `Confined.setPrev`, `Confined.setNext`: the writes.
* `listSort_confined`: `list_sort` is confined to its list, so it leaves other lists alone
  (`listSort_sameBut`).
-/

namespace SystemProgramming.Words

open Lib

variable {α : Type} {as : List Addr} {h h' h'' : Heap α} {list : PintosList} {p q : Ptr}

/-- The pointer is `NULL`, or it leads into the set. -/
def Within (as : List Addr) (p : Ptr) : Prop := ∀ a ∈ p, a ∈ as

/-- No link leads out of the set. -/
def Closed (as : List Addr) (h : Heap α) : Prop :=
  ∀ a ∈ as, Within as (h.prev a) ∧ Within as (h.next a)

/-- **Confined to a set**: nothing else has changed, and the set is closed again. -/
structure Confined (as : List Addr) (h h' : Heap α) : Prop where
  same : SameBut as h h'
  closed : Closed as h'

theorem Confined.refl (hc : Closed as h) : Confined as h h := ⟨.refl as h, hc⟩

theorem Confined.trans (h₁ : Confined as h h') (h₂ : Confined as h' h'') : Confined as h h'' :=
  ⟨h₁.same.trans h₂.same, h₂.closed⟩

theorem within_some {a : Addr} : Within as (some a) ↔ a ∈ as :=
  ⟨fun h => h a rfl, fun h _ hb => Option.some.inj hb ▸ h⟩

/-! ## Reading and writing -/

/-- A pointer that can be followed leads to an element. -/
theorem exists_of_deref {a : Addr} (hd : h.deref p = some a) : p = some a :=
  (Option.filter_eq_some_iff.mp hd).1

theorem Closed.readPrev (hc : Closed as h) (hp : Within as p) (hr : h.readPrev p = some q) :
    Within as q := by
  obtain ⟨a, hd, rfl⟩ := Option.map_eq_some_iff.mp hr
  exact (hc a (hp a (exists_of_deref hd))).1

theorem Closed.readNext (hc : Closed as h) (hp : Within as p) (hr : h.readNext p = some q) :
    Within as q := by
  obtain ⟨a, hd, rfl⟩ := Option.map_eq_some_iff.mp hr
  exact (hc a (hp a (exists_of_deref hd))).2

theorem Closed.listNext (hc : Closed as h) (hp : Within as p) (hr : h.listNext p = some q) :
    Within as q := by
  unfold Heap.listNext at hr
  split_ifs at hr
  exact hc.readNext hp hr

theorem Closed.listPrev (hc : Closed as h) (hp : Within as p) (hr : h.listPrev p = some q) :
    Within as q := by
  unfold Heap.listPrev at hr
  split_ifs at hr
  exact hc.readPrev hp hr

/-- **A write to `prev`.** -/
theorem Confined.setPrev (hc : Confined as h h') (hp : Within as p) (hq : Within as q)
    (hr : h'.setPrev p q = some h'') : Confined as h h'' := by
  obtain ⟨a, hd, rfl⟩ := Option.map_eq_some_iff.mp hr
  have ha : a ∈ as := hp a (exists_of_deref hd)
  have hne : ∀ b, b ∉ as → b ≠ a := fun b hb heq => hb (heq ▸ ha)
  refine hc.trans ⟨⟨rfl, rfl, fun b hb => ⟨Function.update_of_ne (hne b hb) .., rfl⟩⟩,
    fun b hb => ⟨?_, (hc.closed b hb).2⟩⟩
  show Within as (Function.update h'.prev a q b)
  by_cases hba : b = a
  · rw [hba, Function.update_self]
    exact hq
  · rw [Function.update_of_ne hba]
    exact (hc.closed b hb).1

/-- **A write to `next`.** -/
theorem Confined.setNext (hc : Confined as h h') (hp : Within as p) (hq : Within as q)
    (hr : h'.setNext p q = some h'') : Confined as h h'' := by
  obtain ⟨a, hd, rfl⟩ := Option.map_eq_some_iff.mp hr
  have ha : a ∈ as := hp a (exists_of_deref hd)
  have hne : ∀ b, b ∉ as → b ≠ a := fun b hb heq => hb (heq ▸ ha)
  refine hc.trans ⟨⟨rfl, rfl, fun b hb => ⟨rfl, Function.update_of_ne (hne b hb) ..⟩⟩,
    fun b hb => ⟨(hc.closed b hb).1, ?_⟩⟩
  show Within as (Function.update h'.next a q b)
  by_cases hba : b = a
  · rw [hba, Function.update_self]
    exact hq
  · rw [Function.update_of_ne hba]
    exact (hc.closed b hb).2

/-! ## The sort -/

theorem listSplice_confined {before first last : Ptr} (hc : Closed as h) (hb : Within as before)
    (hf : Within as first) (hl : Within as last)
    (hr : h.listSplice before first last = some h') : Confined as h h' := by
  unfold Heap.listSplice at hr
  split_ifs at hr with hok heq
  · obtain rfl := Option.some.inj hr
    exact .refl hc
  · simp only [Option.bind_eq_bind, Option.bind_eq_some_iff] at hr
    obtain ⟨t, ht, hr⟩ := hr
    split_ifs at hr
    simp only [Option.bind_eq_some_iff] at hr
    obtain ⟨p₁, hp₁, n₁, hn₁, h₁, hr₁, n₂, hn₂, p₂, hp₂, h₂, hr₂, p₃, hp₃, h₃, hr₃, h₄, hr₄, p₅,
      hp₅, h₅, hr₅, hr⟩ := hr
    have wt := hc.listPrev hl ht
    have c₁ := (Confined.refl hc).setNext (hc.readPrev hf hp₁) (hc.readNext wt hn₁) hr₁
    have c₂ := c₁.setPrev (c₁.closed.readNext wt hn₂) (c₁.closed.readPrev hf hp₂) hr₂
    have c₃ := c₂.setPrev hf (c₂.closed.readPrev hb hp₃) hr₃
    have c₄ := c₃.setNext wt hb hr₄
    have c₅ := c₄.setNext (c₄.closed.readPrev hb hp₅) hf hr₅
    exact c₅.setPrev hb wt hr

variable (less : α → α → Bool)

theorem mergeLoop_confined {b1 : Ptr} : ∀ (fuel : Nat) (h : Heap α) (a0 a1b0 : Ptr),
    Closed as h → Within as a0 → Within as a1b0 →
    Heap.mergeLoop less b1 fuel h a0 a1b0 = some h' → Confined as h h' := by
  intro fuel
  induction fuel with
  | zero => exact fun _ _ _ _ _ _ hr => absurd hr (by simp [Heap.mergeLoop])
  | succ fuel ih =>
    intro h a0 a1b0 hc ha hb hr
    unfold Heap.mergeLoop at hr
    split_ifs at hr
    · simp only [Option.bind_eq_bind, Option.bind_eq_some_iff] at hr
      obtain ⟨lt, -, hr⟩ := hr
      split_ifs at hr
      · simp only [Option.bind_eq_some_iff] at hr
        obtain ⟨next, hnext, prev, hprev, h₁, hsplice, hr⟩ := hr
        have wn := hc.listNext hb hnext
        have c₁ := listSplice_confined hc ha (hc.listPrev wn hprev) wn hsplice
        exact c₁.trans (ih _ _ _ c₁.closed ha wn hr)
      · obtain ⟨next, hnext, hr⟩ := Option.bind_eq_some_iff.mp hr
        exact ih _ _ _ hc (hc.listNext ha hnext) hb hr
    · obtain rfl := Option.some.inj hr
      exact .refl hc

theorem inplaceMerge_confined {fuel : Nat} {a0 a1b0 b1 : Ptr} (hc : Closed as h)
    (ha : Within as a0) (hb : Within as a1b0)
    (hr : h.inplaceMerge fuel less a0 a1b0 b1 = some h') : Confined as h h' := by
  unfold Heap.inplaceMerge at hr
  split_ifs at hr
  simp only [Option.bind_eq_bind, Option.bind_eq_some_iff] at hr
  obtain ⟨s₁, -, hr⟩ := hr
  split_ifs at hr
  obtain ⟨s₂, -, hr⟩ := Option.bind_eq_some_iff.mp hr
  split_ifs at hr
  exact mergeLoop_confined less fuel h a0 a1b0 hc ha hb hr

theorem endOfRunLoop_within {b : Ptr} (hc : Closed as h) : ∀ (fuel : Nat) (a : Ptr),
    Within as a → h.endOfRunLoop less b fuel a = some q → Within as q := by
  intro fuel
  induction fuel with
  | zero => exact fun _ _ hr => absurd hr (by simp [Heap.endOfRunLoop])
  | succ fuel ih =>
    intro a ha hr
    unfold Heap.endOfRunLoop at hr
    simp only [Option.bind_eq_bind, Option.bind_eq_some_iff] at hr
    obtain ⟨next, hnext, hr⟩ := hr
    have wn := hc.listNext ha hnext
    split_ifs at hr
    · simp only [Option.bind_eq_some_iff] at hr
      obtain ⟨prev, -, lt, -, hr⟩ := hr
      split_ifs at hr
      · exact Option.some.inj hr ▸ wn
      · exact ih next wn hr
    · exact Option.some.inj hr ▸ wn

theorem findEndOfRun_within {fuel : Nat} {a b : Ptr} (hc : Closed as h) (ha : Within as a)
    (hr : h.findEndOfRun fuel less a b = some q) : Within as q := by
  unfold Heap.findEndOfRun at hr
  split_ifs at hr
  exact endOfRunLoop_within less hc fuel a ha hr

theorem sortPass_confined {fuel : Nat} : ∀ (rounds : Nat) (h : Heap α) (a0 : Ptr) (cnt : Nat)
    (r : Heap α × Nat), Closed as h → Within as a0 →
    Heap.sortPass fuel less list rounds h a0 cnt = some r → Confined as h r.1 := by
  intro rounds
  induction rounds with
  | zero => exact fun _ _ _ _ _ _ hr => absurd hr (by simp [Heap.sortPass])
  | succ rounds ih =>
    intro h a0 cnt r hc ha hr
    unfold Heap.sortPass at hr
    split_ifs at hr
    · simp only [Option.bind_eq_bind, Option.bind_eq_some_iff] at hr
      obtain ⟨a1b0, hend, hr⟩ := hr
      have w₁ := findEndOfRun_within less hc ha hend
      split_ifs at hr
      · obtain rfl := Option.some.inj hr
        exact .refl hc
      · simp only [Option.bind_eq_some_iff] at hr
        obtain ⟨b1, hend', h₁, hmerge, hr⟩ := hr
        have c₁ := inplaceMerge_confined less hc ha w₁ hmerge
        exact c₁.trans (ih _ _ _ _ c₁.closed (findEndOfRun_within less hc w₁ hend') hr)
    · obtain rfl := Option.some.inj hr
      exact .refl hc

theorem sortLoop_confined {fuel : Nat} (hhead : list.head ∈ as) : ∀ (rounds : Nat) (h : Heap α),
    Closed as h → Heap.sortLoop fuel less list rounds h = some h' → Confined as h h' := by
  intro rounds
  induction rounds with
  | zero => exact fun _ _ hr => absurd hr (by simp [Heap.sortLoop])
  | succ rounds ih =>
    intro h hc hr
    unfold Heap.sortLoop at hr
    simp only [Option.bind_eq_bind, Option.bind_eq_some_iff] at hr
    obtain ⟨a0, hbegin, r, hpass, hr⟩ := hr
    have c₁ := sortPass_confined less _ _ _ _ _ hc
      (hc.readNext (within_some.mpr hhead) hbegin) hpass
    split_ifs at hr
    · exact c₁.trans (ih _ c₁.closed hr)
    · simp only [Option.bind_eq_some_iff] at hr
      obtain ⟨_, -, sorted, -, hr⟩ := hr
      split_ifs at hr
      obtain rfl := Option.some.inj hr
      exact c₁

/-- The nodes of a list decide its links. -/
theorem IsList.links_at {nodes : List (Addr × α)} (hl : IsList h list nodes) {A C : List Addr}
    {a : Addr} (hsplit : list.elems nodes = A ++ a :: C) :
    h.prev a = A.getLast? ∧ h.next a = C.head? := by
  have hch := hl.chained
  rw [hsplit] at hch
  constructor
  · rcases List.eq_nil_or_concat' A with rfl | ⟨A, b, rfl⟩
    · obtain rfl : list.head = a := (List.cons.inj hsplit).1
      exact hl.head_prev
    · rw [List.getLast?_concat]
      exact (hch.joined (by simp) rfl : h.Joined b a).2
  · cases C with
    | nil =>
      have hlast := congrArg List.getLast? hsplit
      rw [PintosList.elems, List.getLast?_concat, List.getLast?_concat] at hlast
      obtain rfl := Option.some.inj hlast
      exact hl.tail_next
    | cons b C =>
      have hj : h.Joined a b := Links.Chained.joined (l := [a]) hch.right rfl rfl
      exact hj.1

/-- The elements of a list are closed. -/
theorem IsList.closed {nodes : List (Addr × α)} (hl : IsList h list nodes) :
    Closed (list.elems nodes) h := by
  intro a ha
  obtain ⟨A, C, hsplit⟩ := List.append_of_mem ha
  obtain ⟨hprev, hnext⟩ := hl.links_at hsplit
  rw [hprev, hnext, hsplit]
  exact ⟨fun b hb => List.mem_append_left _ (List.mem_of_getLast? hb),
    fun b hb => List.mem_append_right _ (List.mem_cons_of_mem a (List.mem_of_head? hb))⟩

/-- **`list_sort` leaves everything else alone.** -/
theorem listSort_sameBut {nodes : List (Addr × α)} (hl : IsList h list nodes) {fuel : Nat}
    (hr : h.listSort fuel less list = some h') : SameBut (list.elems nodes) h h' :=
  (sortLoop_confined less (by simp [PintosList.elems]) fuel h hl.closed hr).same

end SystemProgramming.Words
