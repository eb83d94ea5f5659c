import Mathlib.Data.Nat.ModEq
import Mathlib.Logic.Function.Basic

/-!
# The ring buffer of the spooler

Model of `spool_t` (`Spooler/spooler.h`) and of `Spooler/spooler_shared.c`: a circular array with
a read and a write index, whose `capacity` counts the free slots.

* A `char *` is `Ptr α`, with `none` for `NULL`. The array `elements` is a function from indices,
  and `spool_init_shared` starts from the indeterminate contents `mem` of the allocated block. Its
  `malloc` is taken to succeed, and the number of bytes not to wrap around.
* `shutdown` is the flag of PART 3 and PART 4. PART 2 has no such field and never reads it. All
  files that see the structure are taken to be compiled with the same define.
* `freed` is not a field of the C structure. It records the pointers that
  `spool_insert_unchecked` gave to `free`.

`contents` are the stored pointers from `read_index` onward. `Ring` is the relation between the
indices and `capacity`. On it, an insert into a spool with room appends
(`contents_spoolInsertUnchecked`) and a removal from a non-empty one takes the first item
(`contents_spoolRemoveUnchecked`).
-/

namespace SystemProgramming.Spooler

/-- A `char *`. -/
abbrev Ptr (α : Type) := Option α

/-- `spool_t`. -/
structure Spool (α : Type) where
  writeIndex : Nat
  readIndex : Nat
  size : Nat
  capacity : Nat
  elements : Nat → Ptr α
  shutdown : Bool
  freed : List (Ptr α)

variable {α : Type}

/-- `spool_init_shared`, with the flag as `spool_init_cv1` and `spool_init_cv2` set it. -/
def spoolInitShared (mem : Nat → Ptr α) (size : Nat) : Spool α where
  writeIndex := 0
  readIndex := 0
  size := size
  capacity := size
  elements := mem
  shutdown := false
  freed := []

def spoolEmpty (sp : Spool α) : Bool := sp.capacity == sp.size

def spoolFull (sp : Spool α) : Bool := sp.capacity == 0

/-- `spool_insert_unchecked`. -/
def spoolInsertUnchecked (sp : Spool α) (item : Ptr α) : Spool α :=
  if sp.size ≤ 0 then sp
  else
    let sp :=
      if !spoolFull sp then { sp with capacity := sp.capacity - 1 }
      else { sp with freed := sp.freed ++ [sp.elements sp.writeIndex] }
    let sp := { sp with elements := Function.update sp.elements sp.writeIndex item }
    { sp with writeIndex := (sp.writeIndex + 1) % sp.size }

/-- `spool_remove_unchecked`: the pointer returned, and the spool after. -/
def spoolRemoveUnchecked (sp : Spool α) : Ptr α × Spool α :=
  if spoolEmpty sp then (none, sp)
  else
    let sp := { sp with capacity := sp.capacity + 1 }
    let res := sp.elements sp.readIndex
    (res, { sp with readIndex := (sp.readIndex + 1) % sp.size })

/-! ## The stored items -/

/-- The number of stored items. -/
def stored (sp : Spool α) : Nat := sp.size - sp.capacity

/-- The stored pointers, from `read_index` onward. -/
def contents (sp : Spool α) : List (Ptr α) :=
  (List.range (stored sp)).map fun k => sp.elements ((sp.readIndex + k) % sp.size)

theorem contents_length (sp : Spool α) : (contents sp).length = stored sp := by
  simp [contents]

/-- The indices and `capacity` agree. -/
structure Ring (sp : Spool α) : Prop where
  capacity_le : sp.capacity ≤ sp.size
  write_eq : sp.writeIndex = (sp.readIndex + stored sp) % sp.size
  read_lt : 0 < sp.size → sp.readIndex < sp.size

theorem ring_spoolInitShared (mem : Nat → Ptr α) (size : Nat) :
    Ring (spoolInitShared mem size) :=
  ⟨le_refl _, by simp [spoolInitShared, stored], fun h => h⟩

theorem contents_spoolInitShared (mem : Nat → Ptr α) (size : Nat) :
    contents (spoolInitShared mem size) = [] := by
  simp [contents, stored, spoolInitShared]

theorem spoolEmpty_iff {sp : Spool α} (h : Ring sp) : spoolEmpty sp = true ↔ stored sp = 0 := by
  have := h.capacity_le
  simp only [spoolEmpty, stored, beq_iff_eq]
  omega

theorem spoolEmpty_iff_contents {sp : Spool α} (h : Ring sp) :
    spoolEmpty sp = true ↔ contents sp = [] := by
  rw [spoolEmpty_iff h, ← contents_length, List.length_eq_zero_iff]

theorem spoolFull_iff {sp : Spool α} : spoolFull sp = true ↔ sp.capacity = 0 := by
  simp [spoolFull]

/-- Two slots of one turn around the ring are the same only at the same distance. -/
theorem slot_inj {r i j n : Nat} (hi : i < n) (hj : j < n) (h : (r + i) % n = (r + j) % n) :
    i = j := by
  have hm : i ≡ j [MOD n] := Nat.ModEq.add_left_cancel' r h
  rwa [Nat.ModEq, Nat.mod_eq_of_lt hi, Nat.mod_eq_of_lt hj] at hm

/-! ## Insert -/

theorem capacity_pos_of_room {sp : Spool α} (hf : spoolFull sp = false) : 0 < sp.capacity := by
  by_contra hc
  rw [spoolFull_iff.mpr (by omega)] at hf
  exact absurd hf (by simp)

/-- With room, an insert takes the branch that does not overwrite. -/
theorem spoolInsertUnchecked_of_room {sp : Spool α} (h : Ring sp) (hf : spoolFull sp = false)
    (item : Ptr α) :
    spoolInsertUnchecked sp item =
      { sp with
        capacity := sp.capacity - 1
        elements := Function.update sp.elements sp.writeIndex item
        writeIndex := (sp.writeIndex + 1) % sp.size } := by
  have hc := capacity_pos_of_room hf
  have hs : ¬ sp.size ≤ 0 := by have := h.capacity_le; omega
  simp [spoolInsertUnchecked, hs, hf]

theorem stored_spoolInsertUnchecked {sp : Spool α} (h : Ring sp) (hf : spoolFull sp = false)
    (item : Ptr α) : stored (spoolInsertUnchecked sp item) = stored sp + 1 := by
  have hc := capacity_pos_of_room hf
  have hle := h.capacity_le
  rw [spoolInsertUnchecked_of_room h hf]
  simp only [stored]
  omega

theorem ring_spoolInsertUnchecked {sp : Spool α} (h : Ring sp) (hf : spoolFull sp = false)
    (item : Ptr α) : Ring (spoolInsertUnchecked sp item) := by
  have hle := h.capacity_le
  have hst := stored_spoolInsertUnchecked h hf item
  rw [spoolInsertUnchecked_of_room h hf] at hst ⊢
  refine ⟨by simp only; omega, ?_, h.read_lt⟩
  rw [hst]
  simp only [h.write_eq, Nat.mod_add_mod, Nat.add_assoc]

/-- **An insert with room appends the item.** -/
theorem contents_spoolInsertUnchecked {sp : Spool α} (h : Ring sp) (hf : spoolFull sp = false)
    (item : Ptr α) : contents (spoolInsertUnchecked sp item) = contents sp ++ [item] := by
  have hc := capacity_pos_of_room hf
  have hle := h.capacity_le
  unfold contents
  rw [stored_spoolInsertUnchecked h hf, spoolInsertUnchecked_of_room h hf, List.range_succ,
    List.map_append, List.map_singleton]
  congr 1
  · -- the slot written is none of the slots in use
    refine List.map_congr_left fun k hk => Function.update_of_ne (fun he => ?_) ..
    have hk' : k < stored sp := List.mem_range.mp hk
    have he' : (sp.readIndex + k) % sp.size = (sp.readIndex + stored sp) % sp.size :=
      he.trans h.write_eq
    have := slot_inj (by unfold stored at hk'; omega) (by unfold stored; omega) he'
    omega
  · simp only [h.write_eq, Function.update_self]

theorem freed_spoolInsertUnchecked {sp : Spool α} (h : Ring sp) (hf : spoolFull sp = false)
    (item : Ptr α) : (spoolInsertUnchecked sp item).freed = sp.freed := by
  rw [spoolInsertUnchecked_of_room h hf]

@[simp] theorem size_spoolInsertUnchecked (sp : Spool α) (item : Ptr α) :
    (spoolInsertUnchecked sp item).size = sp.size := by
  unfold spoolInsertUnchecked
  split_ifs <;> rfl

@[simp] theorem readIndex_spoolInsertUnchecked (sp : Spool α) (item : Ptr α) :
    (spoolInsertUnchecked sp item).readIndex = sp.readIndex := by
  unfold spoolInsertUnchecked
  split_ifs <;> rfl

@[simp] theorem shutdown_spoolInsertUnchecked (sp : Spool α) (item : Ptr α) :
    (spoolInsertUnchecked sp item).shutdown = sp.shutdown := by
  unfold spoolInsertUnchecked
  split_ifs <;> rfl

/-! ## Removal -/

theorem spoolRemoveUnchecked_of_empty {sp : Spool α} (he : spoolEmpty sp = true) :
    spoolRemoveUnchecked sp = (none, sp) := by
  simp [spoolRemoveUnchecked, he]

theorem stored_spoolRemoveUnchecked {sp : Spool α} (h : Ring sp) (he : spoolEmpty sp = false) :
    stored sp = stored (spoolRemoveUnchecked sp).2 + 1 := by
  have hle := h.capacity_le
  have hne : ¬ stored sp = 0 := fun h0 => by
    rw [(spoolEmpty_iff h).mpr h0] at he
    exact absurd he (by simp)
  simp only [spoolRemoveUnchecked, he, Bool.false_eq_true, if_false, stored] at hne ⊢
  omega

theorem ring_spoolRemoveUnchecked {sp : Spool α} (h : Ring sp) :
    Ring (spoolRemoveUnchecked sp).2 := by
  cases he : spoolEmpty sp with
  | true => rw [spoolRemoveUnchecked_of_empty he]; exact h
  | false =>
    have hst := stored_spoolRemoveUnchecked h he
    simp only [spoolRemoveUnchecked, he, Bool.false_eq_true, if_false] at hst ⊢
    have hst' : stored sp = (sp.size - (sp.capacity + 1)) + 1 := hst
    have hle := h.capacity_le
    refine ⟨by unfold stored at hst'; simp only; omega, ?_, fun hs => Nat.mod_lt _ hs⟩
    show sp.writeIndex =
      ((sp.readIndex + 1) % sp.size + (sp.size - (sp.capacity + 1))) % sp.size
    rw [h.write_eq, hst', Nat.mod_add_mod, Nat.add_assoc, Nat.add_comm 1]

/-- **A removal from a non-empty spool returns the first item** and leaves the others. -/
theorem contents_spoolRemoveUnchecked {sp : Spool α} (h : Ring sp) (he : spoolEmpty sp = false) :
    contents sp = (spoolRemoveUnchecked sp).1 :: contents (spoolRemoveUnchecked sp).2 := by
  have hle := h.capacity_le
  have hst := stored_spoolRemoveUnchecked h he
  have hr := h.read_lt (by unfold stored at hst; omega)
  unfold contents
  rw [hst, List.range_succ_eq_map, List.map_cons, List.map_map]
  simp only [spoolRemoveUnchecked, he, Bool.false_eq_true, if_false]
  congr 1
  · rw [Nat.add_zero, Nat.mod_eq_of_lt hr]
  · refine List.map_congr_left fun k _ => ?_
    simp only [Function.comp, Nat.mod_add_mod]
    rw [Nat.add_assoc, Nat.add_comm 1 k]

@[simp] theorem size_spoolRemoveUnchecked (sp : Spool α) :
    (spoolRemoveUnchecked sp).2.size = sp.size := by
  unfold spoolRemoveUnchecked
  split_ifs <;> rfl

@[simp] theorem shutdown_spoolRemoveUnchecked (sp : Spool α) :
    (spoolRemoveUnchecked sp).2.shutdown = sp.shutdown := by
  unfold spoolRemoveUnchecked
  split_ifs <;> rfl

@[simp] theorem freed_spoolRemoveUnchecked (sp : Spool α) :
    (spoolRemoveUnchecked sp).2.freed = sp.freed := by
  unfold spoolRemoveUnchecked
  split_ifs <;> rfl

end SystemProgramming.Spooler
