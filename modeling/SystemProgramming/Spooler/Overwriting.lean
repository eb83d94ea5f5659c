import SystemProgramming.Spooler.Procedures

/-!
# Inserts into a full spool

Any sequence of calls of `spool_insert_unchecked` and `spool_remove_unchecked`, without the checks
of the spoolers. An insert into a full spool overwrites the oldest item and moves the write index
on, but not the read index. `turn k` moves it: after `k` inserts that have overwritten, the spool
with the read index turned by `k` is a ring again.

The items carry the number of items inserted before them, so that no two of them are the same.

* `contents_overwrite`: what an insert into a full spool makes of the ring.
* `turned_of_aligned`: the turned ring holds what the queue that overwrites holds.
* `keepsQueue_iff`: the removals take the oldest item exactly if the read index is right at each.
-/

namespace SystemProgramming.Spooler

open Lib

variable {α β : Type}

/-! ## Turning the ring -/

/-- The read index moves on by `k`. -/
def turn (k : Nat) (sp : Spool α) : Spool α :=
  { sp with readIndex := (sp.readIndex + k) % sp.size }

theorem turn_turn (j k : Nat) (sp : Spool α) : turn j (turn k sp) = turn (k + j) sp := by
  simp only [turn, Nat.mod_add_mod, Nat.add_assoc]

/-- Whole turns bring the read index back. -/
theorem turn_of_dvd {sp : Spool α} {k : Nat} (hk : sp.size ∣ k) (hr : sp.readIndex < sp.size) :
    turn k sp = sp := by
  obtain ⟨j, rfl⟩ := hk
  rw [turn, Nat.add_mul_mod_self_left, Nat.mod_eq_of_lt hr]

/-- An insert does not look at the read index. -/
theorem spoolInsertUnchecked_turn (k : Nat) (sp : Spool α) (item : Ptr α) :
    spoolInsertUnchecked (turn k sp) item = turn k (spoolInsertUnchecked sp item) := by
  unfold spoolInsertUnchecked turn spoolFull
  dsimp only
  by_cases hs : sp.size ≤ 0
  · simp only [if_pos hs]
  · simp only [if_neg hs]
    cases sp.capacity == 0 <;> rfl

/-! ## Overwriting -/

section Overwrite

variable {sp : Spool α}

theorem stored_of_full (hf : spoolFull sp = true) : stored sp = sp.size := by
  rw [stored, spoolFull_iff.mp hf, Nat.sub_zero]

/-- In a full ring the next write goes to the oldest item. -/
theorem write_eq_read (h : Ring sp) (hf : spoolFull sp = true) (hs : 0 < sp.size) :
    sp.writeIndex = sp.readIndex := by
  rw [h.write_eq, stored_of_full hf, Nat.add_mod_right, Nat.mod_eq_of_lt (h.read_lt hs)]

theorem spoolInsertUnchecked_of_full (hf : spoolFull sp = true) (hs : 0 < sp.size)
    (item : Ptr α) :
    spoolInsertUnchecked sp item =
      { sp with
        freed := sp.freed ++ [sp.elements sp.writeIndex]
        elements := Function.update sp.elements sp.writeIndex item
        writeIndex := (sp.writeIndex + 1) % sp.size } := by
  have hs' : ¬ sp.size ≤ 0 := by omega
  simp [spoolInsertUnchecked, hs', hf]

/-- **An overwriting insert** leaves a ring if the read index moves on as well. -/
theorem ring_overwrite (h : Ring sp) (hf : spoolFull sp = true) (hs : 0 < sp.size)
    (item : Ptr α) : Ring (turn 1 (spoolInsertUnchecked sp item)) := by
  rw [spoolInsertUnchecked_of_full hf hs]
  refine ⟨h.capacity_le, ?_, fun _ => Nat.mod_lt _ hs⟩
  have hst := stored_of_full hf
  unfold stored at hst
  show (sp.writeIndex + 1) % sp.size =
    ((sp.readIndex + 1) % sp.size + (sp.size - sp.capacity)) % sp.size
  rw [write_eq_read h hf hs, hst, Nat.add_mod_right, Nat.mod_mod]

/-- The items of a full ring: the one at the write index, and those behind it. -/
theorem contents_of_full (h : Ring sp) (hf : spoolFull sp = true) {n : Nat}
    (hn : sp.size = n + 1) : contents sp = sp.elements sp.writeIndex ::
      (List.range n).map fun k => sp.elements ((sp.readIndex + (k + 1)) % sp.size) := by
  have hs : 0 < sp.size := by omega
  rw [contents, stored_of_full hf, hn, List.range_succ_eq_map, List.map_cons, List.map_map,
    Nat.add_zero, ← hn, Nat.mod_eq_of_lt (h.read_lt hs), ← write_eq_read h hf hs]
  rfl

/-- It drops the oldest item, and appends the new one. -/
theorem contents_overwrite (h : Ring sp) (hf : spoolFull sp = true) (hs : 0 < sp.size)
    (item : Ptr α) :
    contents (turn 1 (spoolInsertUnchecked sp item)) = (contents sp).tail ++ [item] := by
  have hst := stored_of_full hf
  have hread := h.read_lt hs
  obtain ⟨n, hn⟩ : ∃ n, sp.size = n + 1 := ⟨sp.size - 1, by omega⟩
  have hst' : stored (turn 1 (spoolInsertUnchecked sp item)) = n + 1 := by
    rw [spoolInsertUnchecked_of_full hf hs, ← hn]
    exact hst
  rw [contents_of_full h hf hn, List.tail_cons, contents, hst', List.range_succ, List.map_append,
    List.map_singleton, spoolInsertUnchecked_of_full hf hs, write_eq_read h hf hs]
  simp only [turn, Nat.mod_add_mod, Nat.add_assoc, Nat.add_comm 1]
  congr 1
  · -- the slots between the read index and the end of the turn are not written
    refine List.map_congr_left fun k hk => Function.update_of_ne (fun he => ?_) ..
    have hk' := List.mem_range.mp hk
    have he' : (sp.readIndex + (k + 1)) % sp.size = (sp.readIndex + 0) % sp.size := by
      rw [he, Nat.add_zero, Nat.mod_eq_of_lt hread]
    exact absurd (slot_inj (by omega) hs he') (Nat.succ_ne_zero k)
  · rw [← hn, Nat.add_mod_right, Nat.mod_eq_of_lt hread, Function.update_self]

/-- It frees the oldest item. -/
theorem freed_overwrite (h : Ring sp) (hf : spoolFull sp = true) (hs : 0 < sp.size)
    (item : Ptr α) :
    (spoolInsertUnchecked sp item).freed = sp.freed ++ (contents sp).take 1 := by
  obtain ⟨n, hn⟩ : ∃ n, sp.size = n + 1 := ⟨sp.size - 1, by omega⟩
  rw [contents_of_full h hf hn, List.take_succ_cons, List.take_zero,
    spoolInsertUnchecked_of_full hf hs]

end Overwrite

/-! ## The calls -/

/-- A spool, and the number of items inserted so far. -/
structure Tagged (β : Type) where
  sp : Spool (Nat × β)
  inserted : Nat

/-- A call of one of the two functions. An item is any pointer, `NULL` included. -/
def uncheckedCall (s : Tagged β) : Op β → Tagged β
  | .insert item => ⟨spoolInsertUnchecked s.sp (some (s.inserted, item)), s.inserted + 1⟩
  | .remove => ⟨(spoolRemoveUnchecked s.sp).2, s.inserted⟩

/-- The calls of a list, from `spool_init_shared` on. -/
def uncheckedRun (mem : Nat → Ptr (Nat × β)) (n : Nat) (ops : List (Op β)) : Tagged β :=
  ops.foldl uncheckedCall ⟨spoolInitShared mem n, 0⟩

/-- The queue that overwrites, with the number of items inserted so far, and how many inserts have
dropped an item since the last removal. -/
structure OverQueue (β : Type) where
  items : List (Nat × β)
  inserted : Nat
  overwrites : Nat

/-- A call on the queue of at most `n` items. -/
def OverQueue.call (n : Nat) (q : OverQueue β) : Op β → OverQueue β
  | .insert item => {
      items := Fifo.overwrite n q.items (q.inserted, item)
      inserted := q.inserted + 1
      overwrites := if q.items.length < n then q.overwrites else q.overwrites + 1 }
  | .remove => { q with items := q.items.tail, overwrites := 0 }

/-- The calls of a list on the queue. -/
def overRun (n : Nat) (ops : List (Op β)) : OverQueue β := ops.foldl (OverQueue.call n) ⟨[], 0, 0⟩

/-- The calls before each removal satisfy `P`. -/
def AtRemovals (P : List (Op β) → Prop) (ops : List (Op β)) : Prop :=
  ∀ pre post, ops = pre ++ .remove :: post → P pre

/-- A removal after the calls `pre` returns the least recently added item that is still stored,
which has not been freed. -/
def TakesOldest (mem : Nat → Ptr (Nat × β)) (n : Nat) (pre : List (Op β)) : Prop :=
  spoolEmpty (uncheckedRun mem n pre).sp = false →
    ∃ x rest, (overRun n pre).items = x :: rest ∧
      (spoolRemoveUnchecked (uncheckedRun mem n pre).sp).1 = some x ∧
      some x ∉ (uncheckedRun mem n pre).sp.freed

/-- Since the last removal, the inserts that have overwritten have gone around the ring a whole
number of times. -/
def Aligned (n : Nat) (pre : List (Op β)) : Prop := n ∣ (overRun n pre).overwrites

theorem atRemovals_of_not_mem {P : List (Op β) → Prop} {ops : List (Op β)}
    (h : .remove ∉ ops) : AtRemovals P ops := fun pre post he => absurd (by simp [he]) h

theorem atRemovals_append {P : List (Op β) → Prop} {ops : List (Op β)} {op : Op β} :
    AtRemovals P (ops ++ [op]) ↔ AtRemovals P ops ∧ (op = .remove → P ops) := by
  constructor
  · refine fun h => ⟨fun pre post he => h pre (post ++ [op]) ?_, fun he => h ops [] (by rw [he])⟩
    rw [he, List.append_assoc, List.cons_append]
  · rintro ⟨h, hlast⟩ pre post he
    rcases List.eq_nil_or_concat post with rfl | ⟨post', op', rfl⟩
    · obtain ⟨rfl, hop⟩ := List.append_inj' he rfl
      exact hlast (List.cons.inj hop).1
    · rw [List.concat_eq_append, ← List.cons_append, ← List.append_assoc] at he
      obtain ⟨rfl, -⟩ := List.append_inj' he rfl
      exact h pre post' rfl

/-! ## The queue -/

/-- The items carry consecutive numbers, up to the last item inserted. -/
def Numbered (items : List (Nat × β)) (inserted : Nat) : Prop :=
  ∀ k x, items[k]? = some x → x.1 + items.length = inserted + k

theorem Numbered.append {items : List (Nat × β)} {inserted : Nat} (h : Numbered items inserted)
    (item : β) : Numbered (items ++ [(inserted, item)]) (inserted + 1) := by
  intro k x hx
  rw [List.length_append, List.length_singleton]
  rcases Nat.lt_or_ge k items.length with hk | hk
  · rw [List.getElem?_append_left hk] at hx
    have := h k x hx
    omega
  · rw [List.getElem?_append_right hk] at hx
    obtain ⟨h0, hx⟩ := List.getElem?_eq_some_iff.mp hx
    rw [List.length_singleton] at h0
    rw [List.getElem_singleton] at hx
    rw [← hx]
    dsimp only
    omega

theorem Numbered.tail {items : List (Nat × β)} {inserted : Nat} (h : Numbered items inserted) :
    Numbered items.tail inserted := by
  cases items with
  | nil => exact h
  | cons y rest =>
    intro k x hx
    have := h (k + 1) x hx
    rw [List.length_cons] at this
    rw [List.tail_cons]
    omega

/-- **The spool stands for the queue that overwrites**, turned by the overwrites since the last
removal. -/
structure Turned (n : Nat) (q : OverQueue β) (s : Tagged β) : Prop where
  ring : Ring (turn q.overwrites s.sp)
  size : s.sp.size = n
  read_lt : s.sp.readIndex < n
  contents : contents (turn q.overwrites s.sp) = q.items.map some
  full : q.overwrites ≠ 0 → q.items.length = n
  inserted : s.inserted = q.inserted
  tags : Numbered q.items q.inserted
  freed : ∀ p ∈ s.sp.freed, ∃ x, p = some x ∧ x.1 + q.items.length < q.inserted

variable {n : Nat} {q : OverQueue β} {s : Tagged β}

theorem turned_start (mem : Nat → Ptr (Nat × β)) (hn : 0 < n) :
    Turned n ⟨[], 0, 0⟩ ⟨spoolInitShared mem n, 0⟩ := by
  have hturn : turn 0 (spoolInitShared mem n) = spoolInitShared mem n :=
    turn_of_dvd (Nat.dvd_zero _) hn
  refine ⟨?_, rfl, hn, ?_, fun h => absurd rfl h, rfl, fun k x h => absurd h (by simp),
    fun p h => absurd h (by simp [spoolInitShared])⟩
  · rw [hturn]
    exact ring_spoolInitShared mem n
  · rw [hturn]
    exact contents_spoolInitShared mem n

namespace Turned

theorem length_items (h : Turned n q s) : q.items.length = stored s.sp := by
  rw [← List.length_map (f := some), ← h.contents, contents_length]
  rfl

theorem length_le (h : Turned n q s) : q.items.length ≤ n := by
  rw [h.length_items, ← h.size]
  exact Nat.sub_le _ _

theorem empty_iff (h : Turned n q s) : spoolEmpty s.sp = true ↔ q.items = [] := by
  have := spoolEmpty_iff_contents h.ring
  rw [h.contents, List.map_eq_nil_iff] at this
  exact this

theorem room_iff (h : Turned n q s) : spoolFull s.sp = false ↔ q.items.length < n := by
  have hle : s.sp.capacity ≤ s.sp.size := h.ring.capacity_le
  rw [← Bool.not_eq_true, spoolFull_iff, h.length_items, ← h.size, stored]
  have hn := h.read_lt
  rw [← h.size] at hn
  omega

/-- The oldest item has not been freed. -/
theorem not_freed (h : Turned n q s) {x : Nat × β} {rest : List (Nat × β)}
    (hx : q.items = x :: rest) : some x ∉ s.sp.freed := fun hmem => by
  obtain ⟨y, hy, hlt⟩ := h.freed _ hmem
  obtain rfl := Option.some.inj hy
  have htag := h.tags 0 x (by rw [hx]; rfl)
  omega

theorem size_pos (h : Turned n q s) : 0 < (turn q.overwrites s.sp).size := by
  show 0 < s.sp.size
  rw [h.size]
  exact Nat.zero_lt_of_lt h.read_lt

/-- The call of an insert leaves the read index where it is. -/
theorem read_lt_insert (h : Turned n q s) (item : β) :
    (uncheckedCall s (.insert item)).sp.readIndex < n :=
  (readIndex_spoolInsertUnchecked ..).trans_lt h.read_lt

/-- An insert into a spool with room appends. -/
theorem insert_of_room (h : Turned n q s) (hf : spoolFull s.sp = false) (item : β) :
    Turned n ⟨q.items ++ [(q.inserted, item)], q.inserted + 1, q.overwrites⟩
      (uncheckedCall s (.insert item)) := by
  have hturn := spoolInsertUnchecked_turn q.overwrites s.sp (some (s.inserted, item))
  constructor
  case ring =>
    show Ring (turn q.overwrites (spoolInsertUnchecked s.sp _))
    rw [← hturn]
    exact ring_spoolInsertUnchecked h.ring hf _
  case size => exact (size_spoolInsertUnchecked ..).trans h.size
  case read_lt => exact h.read_lt_insert item
  case contents =>
    show Spooler.contents (turn q.overwrites (spoolInsertUnchecked s.sp _)) = _
    rw [← hturn, contents_spoolInsertUnchecked h.ring hf, h.contents, h.inserted,
      List.map_append, List.map_singleton]
  case full => exact fun hne => absurd (h.full hne) (Nat.ne_of_lt (h.room_iff.mp hf))
  case inserted => exact congrArg (· + 1) h.inserted
  case tags => exact h.tags.append item
  case freed =>
    intro p hp
    have hfreed := freed_spoolInsertUnchecked h.ring hf (some (s.inserted, item))
    rw [hturn] at hfreed
    obtain ⟨x, rfl, hx⟩ := h.freed p (hfreed ▸ hp)
    refine ⟨x, rfl, ?_⟩
    show x.1 + (q.items ++ [(q.inserted, item)]).length < q.inserted + 1
    rw [List.length_append, List.length_singleton]
    omega

/-- An insert into a full spool drops the oldest item. -/
theorem insert_of_full (h : Turned n q s) (hf : spoolFull s.sp = true) (item : β) :
    Turned n ⟨q.items.tail ++ [(q.inserted, item)], q.inserted + 1, q.overwrites + 1⟩
      (uncheckedCall s (.insert item)) := by
  have hturn := spoolInsertUnchecked_turn q.overwrites s.sp (some (s.inserted, item))
  have hturn' : turn (q.overwrites + 1) (spoolInsertUnchecked s.sp (some (s.inserted, item))) =
      turn 1 (spoolInsertUnchecked (turn q.overwrites s.sp) (some (s.inserted, item))) := by
    rw [hturn, turn_turn]
  have hlen : q.items.length = n := by
    rw [h.length_items, stored_of_full hf, h.size]
  obtain ⟨x, rest, hx⟩ : ∃ x rest, q.items = x :: rest :=
    List.exists_cons_of_length_pos (hlen ▸ Nat.zero_lt_of_lt h.read_lt)
  have hlength : (q.items.tail ++ [(q.inserted, item)]).length = q.items.length := by
    rw [hx, List.tail_cons, List.length_append, List.length_singleton, List.length_cons]
  constructor
  case ring =>
    show Ring (turn (q.overwrites + 1) (spoolInsertUnchecked s.sp _))
    rw [hturn']
    exact ring_overwrite h.ring hf h.size_pos _
  case size => exact (size_spoolInsertUnchecked ..).trans h.size
  case read_lt => exact h.read_lt_insert item
  case contents =>
    show Spooler.contents (turn (q.overwrites + 1) (spoolInsertUnchecked s.sp _)) = _
    rw [hturn', contents_overwrite h.ring hf h.size_pos, h.contents, h.inserted, List.map_append,
      List.map_singleton, List.map_tail]
  case full => exact fun _ => hlength.trans hlen
  case inserted => exact congrArg (· + 1) h.inserted
  case tags => exact h.tags.tail.append item
  case freed =>
    have hfreed := freed_overwrite h.ring hf h.size_pos (some (s.inserted, item))
    rw [hturn, h.contents, hx, List.map_cons, List.take_succ_cons, List.take_zero] at hfreed
    intro p hp
    show ∃ y, p = some y ∧ y.1 + (q.items.tail ++ [(q.inserted, item)]).length < q.inserted + 1
    rw [hlength]
    have hp : p ∈ s.sp.freed ++ [some x] := hfreed ▸ hp
    rcases List.mem_append.mp hp with hp | hp
    · obtain ⟨y, rfl, hy⟩ := h.freed p hp
      exact ⟨y, rfl, Nat.lt_succ_of_lt hy⟩
    · have htag := h.tags 0 x (by rw [hx]; rfl)
      exact ⟨x, List.mem_singleton.mp hp, by omega⟩

/-- **An insert** keeps the relation. -/
theorem insert (h : Turned n q s) (item : β) :
    Turned n (q.call n (.insert item)) (uncheckedCall s (.insert item)) := by
  unfold OverQueue.call Fifo.overwrite
  by_cases hroom : q.items.length < n
  · simp only [if_pos hroom]
    exact h.insert_of_room (h.room_iff.mpr hroom) item
  · have hf : spoolFull s.sp = true := by
      rw [← Bool.not_eq_false, h.room_iff]
      exact hroom
    simp only [if_neg hroom]
    exact h.insert_of_full hf item

/-- A removal from an empty spool changes nothing. -/
theorem remove_of_empty (h : Turned n q s) (hq : n ∣ q.overwrites)
    (he : spoolEmpty s.sp = true) : Turned n (q.call n .remove) (uncheckedCall s .remove) := by
  have hsize : s.sp.size ∣ q.overwrites := h.size.symm ▸ hq
  have hread : s.sp.readIndex < s.sp.size := h.size.symm ▸ h.read_lt
  have hback : turn q.overwrites s.sp = turn 0 s.sp :=
    (turn_of_dvd hsize hread).trans (turn_of_dvd (Nat.dvd_zero _) hread).symm
  have hs : uncheckedCall s .remove = s := by
    rw [uncheckedCall, spoolRemoveUnchecked_of_empty he]
  have hcall : q.call n .remove = ⟨q.items, q.inserted, 0⟩ := by
    rw [OverQueue.call, h.empty_iff.mp he, List.tail_nil]
  rw [hs, hcall]
  exact ⟨hback ▸ h.ring, h.size, h.read_lt, hback ▸ h.contents, fun hne => absurd rfl hne,
    h.inserted, h.tags, h.freed⟩

/-- A removal from another takes the oldest item, if the read index is right. -/
theorem remove_of_nonempty (h : Turned n q s) (hq : n ∣ q.overwrites)
    (he : spoolEmpty s.sp = false) :
    Turned n (q.call n .remove) (uncheckedCall s .remove) ∧
      ∃ x rest, q.items = x :: rest ∧ (spoolRemoveUnchecked s.sp).1 = some x := by
  have hback : turn q.overwrites s.sp = s.sp :=
    turn_of_dvd (h.size.symm ▸ hq) (h.size.symm ▸ h.read_lt)
  have hring : Ring s.sp := hback ▸ h.ring
  have hcontents : Spooler.contents s.sp = q.items.map some := hback ▸ h.contents
  obtain ⟨x, rest, hx⟩ : ∃ x rest, q.items = x :: rest := by
    refine List.exists_cons_of_ne_nil fun hnil => ?_
    rw [h.empty_iff.mpr hnil] at he
    exact absurd he (by simp)
  have hcons := contents_spoolRemoveUnchecked hring he
  rw [hcontents, hx, List.map_cons] at hcons
  obtain ⟨hres, hrest⟩ := List.cons.inj hcons
  have hring' := ring_spoolRemoveUnchecked hring
  have hsize : (spoolRemoveUnchecked s.sp).2.size = n := by
    rw [size_spoolRemoveUnchecked, h.size]
  have hread : (spoolRemoveUnchecked s.sp).2.readIndex < n := by
    have := hring'.read_lt (hsize.symm ▸ Nat.zero_lt_of_lt h.read_lt)
    rwa [hsize] at this
  have hzero : turn 0 (spoolRemoveUnchecked s.sp).2 = (spoolRemoveUnchecked s.sp).2 :=
    turn_of_dvd (Nat.dvd_zero _) (hsize.symm ▸ hread)
  refine ⟨?_, x, rest, hx, hres.symm⟩
  constructor
  case ring =>
    show Ring (turn 0 (spoolRemoveUnchecked s.sp).2)
    rwa [hzero]
  case size => exact hsize
  case read_lt => exact hread
  case contents =>
    show Spooler.contents (turn 0 (spoolRemoveUnchecked s.sp).2) = q.items.tail.map some
    rw [hzero, ← hrest, hx, List.tail_cons]
  case full => exact fun hne => absurd rfl hne
  case inserted => exact h.inserted
  case tags => exact h.tags.tail
  case freed =>
    intro p hp
    have hp : p ∈ s.sp.freed := by rwa [← freed_spoolRemoveUnchecked]
    obtain ⟨y, rfl, hy⟩ := h.freed p hp
    refine ⟨y, rfl, ?_⟩
    show y.1 + q.items.tail.length < q.inserted
    rw [List.length_tail]
    omega

/-- **A removal** keeps the relation, if the read index is right. -/
theorem remove (h : Turned n q s) (hq : n ∣ q.overwrites) :
    Turned n (q.call n .remove) (uncheckedCall s .remove) := by
  cases he : spoolEmpty s.sp with
  | true => exact h.remove_of_empty hq he
  | false => exact (h.remove_of_nonempty hq he).1

/-- **A removal takes another item** if the read index is wrong. -/
theorem remove_wrong (h : Turned n q s) (hq : ¬ n ∣ q.overwrites) :
    spoolEmpty s.sp = false ∧ ∃ x y rest, q.items = x :: rest ∧
      (spoolRemoveUnchecked s.sp).1 = some y ∧ x ≠ y := by
  have hn := h.read_lt
  have hlen : q.items.length = n := h.full fun h0 => hq (h0 ▸ Nat.dvd_zero n)
  obtain ⟨x, rest, hx⟩ : ∃ x rest, q.items = x :: rest :=
    List.exists_cons_of_length_pos (by omega)
  have he : spoolEmpty s.sp = false := by
    rw [← Bool.not_eq_true, h.empty_iff, hx]
    simp
  -- the read index is that of the item `r` behind the oldest
  have hmod : 0 < q.overwrites % n := Nat.pos_of_ne_zero fun h0 => hq (Nat.dvd_of_mod_eq_zero h0)
  have hlt : q.overwrites % n < n := Nat.mod_lt _ (by omega)
  obtain ⟨r, hr⟩ : ∃ r, q.overwrites % n + r = n := ⟨n - q.overwrites % n, by omega⟩
  obtain ⟨y, hy⟩ : ∃ y, q.items[r]? = some y := ⟨q.items[r], List.getElem?_eq_getElem (by omega)⟩
  have hslot : ((s.sp.readIndex + q.overwrites) % n + r) % n = s.sp.readIndex := by
    have hwhole : q.overwrites + r = n * (q.overwrites / n + 1) := by
      have := Nat.div_add_mod q.overwrites n
      rw [Nat.mul_succ]
      omega
    rw [Nat.mod_add_mod, Nat.add_assoc, hwhole, Nat.add_mul_mod_self_left, Nat.mod_eq_of_lt hn]
  have hget : s.sp.elements s.sp.readIndex = some y := by
    have hstored : r < stored (turn q.overwrites s.sp) := by
      show r < stored s.sp
      rw [← h.length_items]
      omega
    have hcontents := congrArg (·[r]?) h.contents
    simp only [Spooler.contents, List.getElem?_map, hy, List.getElem?_range hstored,
      Option.map_some] at hcontents
    have hcontents := Option.some.inj hcontents
    simp only [turn, h.size, hslot] at hcontents
    exact hcontents
  refine ⟨he, x, y, rest, hx, ?_, ?_⟩
  · simp only [spoolRemoveUnchecked, he, Bool.false_eq_true, if_false]
    exact hget
  · rintro rfl
    have h0 := h.tags 0 x (by rw [hx]; rfl)
    have hr' := h.tags r x hy
    omega

end Turned

/-! ## Runs -/

variable {mem : Nat → Ptr (Nat × β)} {ops : List (Op β)}

theorem uncheckedRun_append (op : Op β) :
    uncheckedRun mem n (ops ++ [op]) = uncheckedCall (uncheckedRun mem n ops) op :=
  List.foldl_concat ..

theorem overRun_append (op : Op β) : overRun n (ops ++ [op]) = (overRun n ops).call n op :=
  List.foldl_concat ..

/-- **While the read index is right at the removals**, the spool stands for the queue. -/
theorem turned_of_aligned (hn : 0 < n) (h : AtRemovals (Aligned n) ops) :
    Turned n (overRun n ops) (uncheckedRun mem n ops) := by
  induction ops using List.reverseRecOn with
  | nil => exact turned_start mem hn
  | append_singleton ops op ih =>
    rw [atRemovals_append] at h
    have hops := ih h.1
    rw [overRun_append, uncheckedRun_append]
    cases op with
    | insert item => exact hops.insert item
    | remove => exact hops.remove (h.2 rfl)

/-- One removal takes the oldest item iff the read index is right. -/
theorem Turned.takesOldest_iff
    (h : Turned n (overRun n ops) (uncheckedRun mem n ops)) :
    TakesOldest mem n ops ↔ Aligned n ops := by
  constructor
  · intro htakes
    by_contra hq
    obtain ⟨he, x, y, rest, hx, hy, hne⟩ := h.remove_wrong hq
    obtain ⟨x', rest', hx', hres, -⟩ := htakes he
    obtain ⟨rfl, -⟩ := List.cons.inj (hx.symm.trans hx')
    exact hne (Option.some.inj (hres.symm.trans hy))
  · intro hq he
    obtain ⟨-, x, rest, hx, hres⟩ := h.remove_of_nonempty hq he
    exact ⟨x, rest, hx, hres, h.not_freed hx⟩

/-- **The removals take the oldest items** that are still stored, and never one that has been freed,
if and only if at each removal the inserts that have overwritten since the last one have gone around
the ring a whole number of times. -/
theorem keepsQueue_iff (mem : Nat → Ptr (Nat × β)) (n : Nat) (hn : 0 < n) (ops : List (Op β)) :
    AtRemovals (TakesOldest mem n) ops ↔ AtRemovals (Aligned n) ops := by
  induction ops using List.reverseRecOn with
  | nil => exact iff_of_true (atRemovals_of_not_mem (by simp)) (atRemovals_of_not_mem (by simp))
  | append_singleton ops op ih =>
    rw [atRemovals_append, atRemovals_append, ih]
    exact and_congr_right fun hops =>
      forall_congr' fun _ => (turned_of_aligned hn hops).takesOldest_iff

/-- Two inserts into a full spool of two slots, and a removal. -/
theorem keepsQueue_iff_four :
    AtRemovals (TakesOldest (fun _ => none) 2)
      [.insert (), .insert (), .insert (), .insert (), .remove] := by
  refine (keepsQueue_iff _ 2 (by decide) _).mpr ?_
  show AtRemovals _ ([.insert (), .insert (), .insert (), .insert ()] ++ [.remove])
  rw [atRemovals_append]
  exact ⟨atRemovals_of_not_mem (by simp), fun _ => ⟨1, rfl⟩⟩

/-- One insert into a full spool of two slots: the removal returns the third item, not the
second. -/
theorem keepsQueue_three :
    ¬ (∀ (mem : Nat → Ptr (Nat × Unit)) (n : Nat) (ops : List (Op Unit)), 0 < n →
      AtRemovals (TakesOldest mem n) ops) ∧
    (spoolRemoveUnchecked (uncheckedRun (fun _ => none) 2
      [.insert (), .insert (), .insert ()]).sp).1 = some (2, ()) ∧
    (overRun 2 [.insert (), .insert (), .insert ()]).items = [(1, ()), (2, ())] := by
  refine ⟨fun hclaim => ?_, rfl, rfl⟩
  obtain ⟨x, rest, hx, hres, -⟩ := hclaim (fun _ => none) 2
    [.insert (), .insert (), .insert (), .remove] (by decide) [.insert (), .insert (), .insert ()]
    [] rfl rfl
  obtain ⟨rfl, -⟩ := List.cons.inj hx
  exact absurd hres (by decide)

end SystemProgramming.Spooler
