import SystemProgramming.Lib.Cursor

/-!
# Indices into a buffer

A pointer into a buffer as the index it stands for, which may be any integer. Every access looks at
the index first, so that the first one outside the buffer ends the program, with its index. A loop
takes fuel.

* `scanAt_eq`: the loop on an index does what the loop on a cursor does.
* `fieldAt_eq`: what is copied out of a buffer behind the loop.
-/

namespace SystemProgramming.Lib

/-- Why a program on a buffer has given no result: an access at an index outside the buffer, or the
fuel is used up. -/
inductive IndexFault
  | outside (i : Int)
  | running
  deriving DecidableEq

variable {β : Type}

/-- `buffer[i]`. -/
def loadAt (buffer : List β) (i : Int) : Except IndexFault β :=
  if 0 ≤ i then (buffer[i.toNat]?).elim (.error (.outside i)) .ok else .error (.outside i)

/-- `buffer[i] = b`. -/
def storeAt (buffer : List β) (i : Int) (b : β) : Except IndexFault (List β) :=
  if 0 ≤ i ∧ i < buffer.length then .ok (buffer.set i.toNat b) else .error (.outside i)

/-- The loop `while (p(buffer[i])) i++`: the index where it stops. -/
def scanAt (p : β → Bool) (buffer : List β) : Nat → Int → Except IndexFault Int
  | 0, _ => .error .running
  | fuel + 1, i => do
    let b ← loadAt buffer i
    if p b then scanAt p buffer fuel (i + 1) else .ok i

/-- `memcpy` of `n` elements out of the buffer, from the index `i` on. -/
def copyAt (buffer : List β) : Nat → Int → Except IndexFault (List β)
  | 0, _ => .ok []
  | n + 1, i => do
    let b ← loadAt buffer i
    let u ← copyAt buffer n (i + 1)
    .ok (b :: u)

/-- The loop, and a copy of what it has passed over. -/
def fieldAt (p : β → Bool) (buffer : List β) (fuel : Nat) (i : Int) :
    Except IndexFault (List β × Int) := do
  let j ← scanAt p buffer fuel i
  let u ← copyAt buffer (j - i).toNat i
  .ok (u, j)

variable {buffer u w : List β} {b : β} {i fuel : Nat} {p : β → Bool}

/-! ## One access -/

theorem loadAt_of_drop (h : buffer.drop i = b :: w) : loadAt buffer i = .ok b := by
  have hget : buffer[i]? = some b := by
    rw [← Nat.add_zero i, ← List.getElem?_drop, h]
    rfl
  rw [loadAt, if_pos (Int.natCast_nonneg i), Int.toNat_natCast, hget]
  rfl

theorem storeAt_of_lt (h : i < buffer.length) (b : β) :
    storeAt buffer i b = .ok (buffer.set i b) := by
  rw [storeAt, if_pos ⟨Int.natCast_nonneg i, Int.ofNat_lt.mpr h⟩, Int.toNat_natCast]

/-- A store in front of the buffer. -/
theorem storeAt_of_neg {j : Int} (h : j < 0) (b : β) :
    storeAt buffer j b = .error (.outside j) :=
  if_neg fun hj => absurd hj.1 (Int.not_le.mpr h)

/-! ## Loops -/

theorem drop_add_of_append (h : buffer.drop i = u ++ w) : buffer.drop (i + u.length) = w := by
  rw [← List.drop_drop, h, List.drop_left]

/-- **The loop on an index** stops where the loop on a cursor does. -/
theorem scanAt_eq (h : scanWhile p (buffer.drop i) = some (u, w))
    (hfuel : u.length < fuel) : scanAt p buffer fuel i = .ok ((i + u.length : Nat) : Int) := by
  induction fuel generalizing i u with
  | zero => exact absurd hfuel (Nat.not_lt_zero _)
  | succ fuel ih =>
    cases hs : buffer.drop i with
    | nil =>
      rw [hs] at h
      exact absurd h (by simp [scanWhile])
    | cons b s =>
      rw [hs, scanWhile] at h
      rw [scanAt, loadAt_of_drop hs]
      show (if p b = true then _ else _) = _
      split_ifs at h ⊢ with hb
      · obtain ⟨r, hr, he⟩ := Option.map_eq_some_iff.mp h
        obtain ⟨rfl, rfl⟩ := Prod.mk.inj he
        have hnext : buffer.drop (i + 1) = s := drop_add_of_append (u := [b]) hs
        have := ih (i := i + 1) (by rwa [hnext]) (Nat.lt_of_succ_lt_succ hfuel)
        rw [Int.natCast_add_one] at this
        rw [this, List.length_cons, Nat.add_right_comm i 1, Nat.add_assoc]
      · obtain ⟨rfl, -⟩ := Prod.mk.inj (Option.some.inj h)
        rfl

/-- **A copy** out of the buffer. -/
theorem copyAt_eq (h : buffer.drop i = u ++ w) : copyAt buffer u.length i = .ok u := by
  induction u generalizing i with
  | nil => rfl
  | cons b u ih =>
    have hnext : buffer.drop (i + 1) = u ++ w := drop_add_of_append (u := [b]) h
    have := ih hnext
    rw [Int.natCast_add_one] at this
    rw [List.length_cons, copyAt, loadAt_of_drop h, this]
    rfl

/-- **A field** of the buffer. -/
theorem fieldAt_eq (h : scanWhile p (buffer.drop i) = some (u, w)) (hfuel : u.length < fuel) :
    fieldAt p buffer fuel i = .ok (u, ((i + u.length : Nat) : Int)) := by
  have hsize : (((i + u.length : Nat) : Int) - i).toNat = u.length := by omega
  rw [fieldAt, scanAt_eq h hfuel]
  show (copyAt buffer (((i + u.length : Nat) : Int) - i).toNat i >>= _) = _
  rw [hsize, copyAt_eq (eq_of_scanWhile h)]
  rfl

end SystemProgramming.Lib
