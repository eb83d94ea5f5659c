import Mathlib.Data.List.Basic

/-!
# Writing to a file

An open file: its content, and the offset at which the next `write` starts. The offset only moves by
writing, so it stays inside the content. `write` replaces what is there and goes on behind the end.

* `write_write`, `writes_eq`: what is written piece by piece is written at once.
* `content_writes_opened`: what writing leaves of the content that was there when the file was
  opened.
-/

namespace SystemProgramming.Lib

/-- An open file. -/
structure FileState (β : Type) where
  content : List β
  offset : Nat
  offset_le : offset ≤ content.length

namespace FileState

variable {β : Type}

/-- `open` with `O_WRONLY | O_CREAT`, of a file that has the content `old` or does not exist. -/
def opened (old : Option (List β)) : FileState β := ⟨old.getD [], 0, Nat.zero_le _⟩

/-- `write`. -/
def write (s : FileState β) (u : List β) : FileState β where
  content := s.content.take s.offset ++ u ++ s.content.drop (s.offset + u.length)
  offset := s.offset + u.length
  offset_le := by
    have := s.offset_le
    simp only [List.length_append, List.length_take, List.length_drop]
    omega

@[ext] theorem ext {s t : FileState β} (hc : s.content = t.content) (ho : s.offset = t.offset) :
    s = t := by
  cases s
  cases t
  cases hc
  cases ho
  rfl

theorem write_nil (s : FileState β) : s.write [] = s := by
  refine FileState.ext ?_ rfl
  simp [write]

/-- **Two writes** are one. -/
theorem write_write (s : FileState β) (u v : List β) : (s.write u).write v = s.write (u ++ v) := by
  have hlen : (s.content.take s.offset ++ u).length = s.offset + u.length := by
    rw [List.length_append, List.length_take, Nat.min_eq_left s.offset_le]
  refine FileState.ext ?_ ?_
  · simp only [write]
    rw [← hlen, List.take_left, ← List.drop_drop, List.drop_left, List.drop_drop, hlen,
      List.append_assoc _ u v, List.length_append, Nat.add_assoc]
  · simp only [write, List.length_append, Nat.add_assoc]

/-- What is written piece by piece is written at once. -/
theorem writes_eq (chunks : List (List β)) (s : FileState β) :
    chunks.foldl write s = s.write chunks.flatten := by
  induction chunks generalizing s with
  | nil => rw [List.foldl_nil, List.flatten_nil, write_nil]
  | cons u chunks ih => rw [List.foldl_cons, ih, write_write, List.flatten_cons]

/-- **What writing leaves** of the old content: the bytes behind what has been written. -/
theorem content_writes_opened (old : Option (List β)) (chunks : List (List β)) :
    (chunks.foldl write (opened old)).content =
      chunks.flatten ++ (old.getD []).drop chunks.flatten.length := by
  rw [writes_eq]
  simp [write, opened]

/-- The content is what has been written exactly if that covers the old content. -/
theorem content_writes_opened_iff (old : Option (List β)) (chunks : List (List β)) :
    (chunks.foldl write (opened old)).content = chunks.flatten ↔
      (old.getD []).length ≤ chunks.flatten.length := by
  rw [content_writes_opened, List.append_right_eq_self, List.drop_eq_nil_iff]

end FileState

end SystemProgramming.Lib
