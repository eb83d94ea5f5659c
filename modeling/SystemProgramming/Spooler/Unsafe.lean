import SystemProgramming.Spooler.Procedures

/-!
# The unsafe spooler

`Spooler/spooler_unsafe.c`: one thread inserts and removes without waiting. An insert into a full
buffer is ignored, a removal from an empty one returns `NULL`.

`unsafeRun` runs any sequence of calls. `abstractRun` runs it on the queue of at most `n` items.
`Refines` relates the two states: it adds to the ring of `Ring.lean` how far the read index has
come, which is what fixes the slot of every item.

* `unsafeCall_refines`: a call returns what the abstract call returns and keeps the relation.
* `unsafeRun_refines`: so does every sequence of calls from `spool_init_shared`, for every size.
-/

namespace SystemProgramming.Spooler

open Lib

variable {α : Type}

/-- `spool_insert_unsafe`. -/
def spoolInsertUnsafe (sp : Spool α) (item : Ptr α) : Spool α :=
  if spoolFull sp then sp else spoolInsertUnchecked sp item

/-- `spool_remove_unsafe`: the pointer returned, and the spool after. -/
def spoolRemoveUnsafe (sp : Spool α) : Ptr α × Spool α :=
  if spoolEmpty sp then (none, sp) else spoolRemoveUnchecked sp

/-- A call of the interface in the build without threads. -/
def unsafeCall (sp : Spool α) : Op α → Ret α × Spool α
  | .insert item => (.void, spoolInsertUnsafe sp (some item))
  | .remove => (.ptr (spoolRemoveUnsafe sp).1, (spoolRemoveUnsafe sp).2)

/-- The call computes an index `% sp->size`. -/
def computesMod (sp : Spool α) : Op α → Bool
  | .insert _ => !spoolFull sp && !decide (sp.size ≤ 0)
  | .remove => !spoolEmpty sp

/-- The calls of a list, one after the other: what they return, and the spool after. -/
def unsafeRun (sp : Spool α) : List (Op α) → List (Ret α) × Spool α
  | [] => ([], sp)
  | op :: ops =>
    let r := unsafeRun (unsafeCall sp op).2 ops
    ((unsafeCall sp op).1 :: r.1, r.2)

/-! ## The abstract queue -/

/-- A call on the queue of at most `n` items. -/
def abstractCall (n : Nat) (q : List α) : Op α → Ret α × List α
  | .insert item => (.void, Fifo.offer n q item)
  | .remove => (.ptr (Fifo.poll q).1, (Fifo.poll q).2)

/-- The abstract queue with its history: the items it took in and how many it gave back. -/
structure Queue (α : Type) where
  items : List α
  accepted : List α
  taken : Nat

/-- Nothing has happened. -/
def Queue.empty : Queue α := ⟨[], [], 0⟩

/-- A call on the queue, with the history. -/
def Queue.call (n : Nat) (q : Queue α) (op : Op α) : Ret α × Queue α :=
  ((abstractCall n q.items op).1, {
    items := (abstractCall n q.items op).2
    accepted := match op with
      | .insert item => if q.items.length < n then q.accepted ++ [item] else q.accepted
      | .remove => q.accepted
    taken := match op with
      | .insert _ => q.taken
      | .remove => if q.items = [] then q.taken else q.taken + 1 })

/-- The calls of a list on the queue. -/
def abstractRun (n : Nat) (q : Queue α) : List (Op α) → List (Ret α) × Queue α
  | [] => ([], q)
  | op :: ops =>
    let r := abstractRun n (q.call n op).2 ops
    ((q.call n op).1 :: r.1, r.2)

/-! ## The refinement -/

/-- **The spooler stands for the queue**: the buffer is a ring of size `n` that never overwrote
anything and holds the items, and the read index counts the items taken. -/
structure Refines (n : Nat) (q : Queue α) (sp : Spool α) : Prop where
  ring : Ring sp
  size : sp.size = n
  freed : sp.freed = []
  contents : contents sp = q.items.map some
  read : sp.readIndex = q.taken % n
  items : q.items = q.accepted.drop q.taken
  taken_le : q.taken ≤ q.accepted.length

variable {n : Nat} {q : Queue α} {sp : Spool α}

theorem refines_spoolInitShared (mem : Nat → Ptr α) (n : Nat) :
    Refines n .empty (spoolInitShared mem n) :=
  ⟨ring_spoolInitShared mem n, rfl, rfl, contents_spoolInitShared mem n, (Nat.zero_mod n).symm, rfl,
    le_refl _⟩

theorem Refines.length_items (h : Refines n q sp) : q.items.length = stored sp := by
  rw [← contents_length, h.contents, List.length_map]

theorem Refines.length_le (h : Refines n q sp) : q.items.length ≤ n := by
  rw [h.length_items, ← h.size]
  exact Nat.sub_le _ _

theorem Refines.empty_iff (h : Refines n q sp) : spoolEmpty sp = true ↔ q.items = [] := by
  rw [spoolEmpty_iff_contents h.ring, h.contents, List.map_eq_nil_iff]

theorem Refines.full_iff (h : Refines n q sp) : spoolFull sp = true ↔ q.items.length = n := by
  have hle := h.ring.capacity_le
  rw [spoolFull_iff, h.length_items, ← h.size]
  unfold stored
  omega

/-- The indices stay inside the buffer, and the write index is the read index and the number of
stored items apart. -/
theorem Refines.indices (h : Refines n q sp) :
    sp.capacity ≤ sp.size ∧ (0 < n → sp.readIndex < sp.size ∧ sp.writeIndex < sp.size) ∧
      sp.writeIndex = (sp.readIndex + sp.size - sp.capacity) % sp.size := by
  have hle := h.ring.capacity_le
  have hw := h.ring.write_eq
  have hread := h.ring.read_lt
  rw [← h.size]
  refine ⟨hle, ?_, ?_⟩
  · intro hn
    refine ⟨hread hn, ?_⟩
    rw [hw]
    exact Nat.mod_lt _ hn
  · rw [hw, stored, Nat.add_sub_assoc hle]

/-- **The slot of an item is fixed by when it came**: the `i`-th item taken in stays in slot
`i % n` as long as it is stored. -/
theorem Refines.slot (h : Refines n q sp) {i : Nat} {x : α} (hi : q.taken ≤ i)
    (hx : q.accepted[i]? = some x) : sp.elements (i % n) = some x := by
  obtain ⟨k, rfl⟩ := Nat.exists_eq_add_of_le hi
  have hk : q.items[k]? = some x := by rw [h.items, List.getElem?_drop, hx]
  have hget : (Spooler.contents sp)[k]? = some (some x) := by
    rw [h.contents, List.getElem?_map, hk]
    rfl
  have hlt : k < stored sp := by
    rw [← h.length_items]
    exact (List.getElem?_eq_some_iff.mp hk).1
  unfold Spooler.contents at hget
  rw [List.getElem?_map, List.getElem?_range hlt, Option.map_some, h.read, h.size,
    Nat.mod_add_mod] at hget
  exact Option.some.inj hget

/-- No index is computed modulo zero. -/
theorem Refines.size_ne_zero (h : Refines n q sp) {op : Op α} (hm : computesMod sp op = true) :
    sp.size ≠ 0 := by
  have hle := h.ring.capacity_le
  cases op with
  | insert item =>
    have := (Bool.and_eq_true_iff.mp hm).2
    simp only [Bool.not_eq_true', decide_eq_false_iff_not] at this
    omega
  | remove =>
    simp only [computesMod, spoolEmpty, Bool.not_eq_true', beq_eq_false_iff_ne] at hm
    omega

/-! ## Calls -/

theorem Refines.room_iff (h : Refines n q sp) : spoolFull sp = false ↔ q.items.length < n := by
  have := h.length_le
  rw [← Bool.not_eq_true, h.full_iff]
  omega

theorem refines_insert (h : Refines n q sp) (item : α) :
    Refines n (q.call n (.insert item)).2 (spoolInsertUnsafe sp (some item)) := by
  unfold spoolInsertUnsafe
  simp only [Queue.call, abstractCall, Fifo.offer]
  cases hf : spoolFull sp with
  | true =>
    have hno : ¬ q.items.length < n := by rw [← h.room_iff, hf]; simp
    rw [if_pos rfl, if_neg hno, if_neg hno]
    exact h
  | false =>
    have hroom := h.room_iff.mp hf
    rw [if_neg Bool.false_ne_true, if_pos hroom, if_pos hroom]
    refine ⟨ring_spoolInsertUnchecked h.ring hf _, ?_, ?_, ?_, ?_, ?_, ?_⟩
    · rw [size_spoolInsertUnchecked, h.size]
    · rw [freed_spoolInsertUnchecked h.ring hf, h.freed]
    · rw [contents_spoolInsertUnchecked h.ring hf, h.contents, List.map_append, List.map_singleton]
    · rw [spoolInsertUnchecked_of_room h.ring hf]
      exact h.read
    · rw [List.drop_append_of_le_length h.taken_le, h.items]
    · rw [List.length_append]
      exact Nat.le_add_right_of_le h.taken_le

theorem refines_remove (h : Refines n q sp) :
    (spoolRemoveUnsafe sp).1 = (Fifo.poll q.items).1 ∧
      Refines n (q.call n .remove).2 (spoolRemoveUnsafe sp).2 := by
  unfold spoolRemoveUnsafe
  simp only [Queue.call, abstractCall]
  cases he : spoolEmpty sp with
  | true =>
    have h0 := h.empty_iff.mp he
    have hpoll : Fifo.poll q.items = (none, []) := by rw [h0]; rfl
    rw [if_pos rfl, if_pos h0, hpoll]
    exact ⟨rfl, h.ring, h.size, h.freed, by rw [h.contents, h0], h.read, by rw [← h.items, h0],
      h.taken_le⟩
  | false =>
    obtain ⟨x, rest, hx⟩ : ∃ x rest, q.items = x :: rest := by
      refine List.exists_cons_of_ne_nil fun h0 => ?_
      rw [h.empty_iff.mpr h0] at he
      exact absurd he (by simp)
    have hpoll : Fifo.poll q.items = (some x, rest) := by rw [hx]; rfl
    have hne : q.items ≠ [] := by simp [hx]
    have hcons := contents_spoolRemoveUnchecked h.ring he
    rw [h.contents, hx, List.map_cons] at hcons
    obtain ⟨h1, h2⟩ := List.cons.inj hcons
    have hread : (spoolRemoveUnchecked sp).2.readIndex = (sp.readIndex + 1) % sp.size := by
      simp [spoolRemoveUnchecked, he]
    rw [if_neg Bool.false_ne_true, if_neg hne, hpoll]
    refine ⟨h1.symm, ring_spoolRemoveUnchecked h.ring, ?_, ?_, h2.symm, ?_, ?_, ?_⟩
    · rw [size_spoolRemoveUnchecked, h.size]
    · rw [freed_spoolRemoveUnchecked, h.freed]
    · rw [hread, h.read, h.size, Nat.mod_add_mod]
    · rw [← List.drop_drop, ← h.items, hx]
      rfl
    · have hlen : 0 < (q.accepted.drop q.taken).length := by rw [← h.items, hx]; simp
      rw [List.length_drop] at hlen
      exact Nat.succ_le_of_lt (Nat.lt_of_sub_pos hlen)

/-- **A call returns what the abstract call returns** and keeps the relation. -/
theorem unsafeCall_refines (h : Refines n q sp) (op : Op α) :
    (unsafeCall sp op).1 = (q.call n op).1 ∧
      Refines n (q.call n op).2 (unsafeCall sp op).2 := by
  cases op with
  | insert item => exact ⟨rfl, refines_insert h item⟩
  | remove =>
    obtain ⟨h1, h2⟩ := refines_remove h
    exact ⟨congrArg Ret.ptr h1, h2⟩

/-- Every sequence of calls keeps the relation. -/
theorem Refines.run (h : Refines n q sp) (ops : List (Op α)) :
    (unsafeRun sp ops).1 = (abstractRun n q ops).1 ∧
      Refines n (abstractRun n q ops).2 (unsafeRun sp ops).2 := by
  induction ops generalizing q sp with
  | nil => exact ⟨rfl, h⟩
  | cons op ops ih =>
    obtain ⟨h1, h2⟩ := unsafeCall_refines h op
    obtain ⟨h3, h4⟩ := ih h2
    exact ⟨List.cons_eq_cons.mpr ⟨h1, h3⟩, h4⟩

/-- **The unsafe spooler refines a bounded FIFO queue**, for every size: the same results, empty and
full at the right times, indices and `capacity` in step, no index modulo zero, every stored item in
the slot it came into, and nothing overwritten and freed. -/
theorem unsafeRun_refines (mem : Nat → Ptr α) (n : Nat) (ops : List (Op α)) :
    ∃ sp q, unsafeRun (spoolInitShared mem n) ops = ((abstractRun n .empty ops).1, sp) ∧
      (abstractRun n .empty ops).2 = q ∧
      contents sp = q.items.map some ∧ q.items.length ≤ n ∧
      (spoolEmpty sp = true ↔ q.items.length = 0) ∧
      (spoolFull sp = true ↔ q.items.length = n) ∧
      (sp.capacity ≤ sp.size ∧ (0 < n → sp.readIndex < sp.size ∧ sp.writeIndex < sp.size) ∧
        sp.writeIndex = (sp.readIndex + sp.size - sp.capacity) % sp.size) ∧
      (∀ op, computesMod sp op = true → sp.size ≠ 0) ∧
      q.items = q.accepted.drop q.taken ∧
      (∀ i x, q.taken ≤ i → q.accepted[i]? = some x → sp.elements (i % n) = some x) ∧
      sp.freed = [] := by
  obtain ⟨hres, h⟩ := (refines_spoolInitShared mem n).run ops
  refine ⟨_, _, Prod.ext hres rfl, rfl, h.contents, h.length_le, ?_, h.full_iff, h.indices,
    fun _ => h.size_ne_zero, h.items, fun _ _ => h.slot, h.freed⟩
  rw [h.empty_iff, List.length_eq_zero_iff]

/-- A buffer of two slots: the third item is refused, the slot of the first is used again. -/
example : (unsafeRun (spoolInitShared (fun _ => none) 2)
    [.insert 1, .insert 2, .insert 3, .remove, .insert 4, .remove, .remove, .remove]).1 =
      [.void, .void, .void, .ptr (some 1), .void, .ptr (some 2), .ptr (some 4), .ptr none] := rfl

end SystemProgramming.Spooler
