import Mathlib.Data.List.Induction

/-!
# Bounded FIFO queues

The abstract queue of at most `n` items as a labelled machine. `put x` appends when there is
room, `get (some x)` takes the oldest item, and `get none` is allowed on the empty queue only.
`Run n es q` says that the events `es`, from the empty queue, are a history of the machine and
leave `q`.

* `Run.fifo`: what was put is what was got, in order, followed by what is left.
* `Run.length_le`: the bound.
* `Run.miss`: a `get` that found nothing happened when everything put had been got.

`offer` and `poll` are the queue as a pair of functions that never block: a put into a full queue is
ignored. `overwrite` is a put that makes room instead.
-/

namespace SystemProgramming.Lib.Fifo

variable {α : Type} {n : Nat}

inductive Event (α : Type) where
  | put (x : α)
  | get (x : Option α)

/-- One operation of the queue of at most `n` items. -/
inductive Step (n : Nat) : List α → Event α → List α → Prop
  | put (q : List α) (x : α) (h : q.length < n) : Step n q (.put x) (q ++ [x])
  | get (q : List α) (x : α) : Step n (x :: q) (.get (some x)) q
  | miss : Step n [] (.get none) []

/-- The histories of the queue from empty, oldest event first. -/
inductive Run (n : Nat) : List (Event α) → List α → Prop
  | nil : Run n [] []
  | snoc {es : List (Event α)} {q q' : List α} {e : Event α} (h : Run n es q) (hs : Step n q e q') :
      Run n (es ++ [e]) q'

/-- The items put, in order. -/
def puts (es : List (Event α)) : List α :=
  es.filterMap fun e => match e with
    | .put x => some x
    | .get _ => none

/-- The items got, in order. -/
def gets (es : List (Event α)) : List α :=
  es.filterMap fun e => match e with
    | .put _ => none
    | .get x => x

/-- **First in, first out.** -/
theorem Run.fifo {es : List (Event α)} {q : List α} (h : Run n es q) :
    puts es = gets es ++ q := by
  induction h with
  | nil => rfl
  | snoc h hs ih =>
    unfold puts gets at ih ⊢
    rw [List.filterMap_append, List.filterMap_append, ih]
    cases hs <;> simp

theorem Run.length_le {es : List (Event α)} {q : List α} (h : Run n es q) : q.length ≤ n := by
  induction h with
  | nil => exact Nat.zero_le n
  | snoc h hs ih =>
    cases hs with
    | put _ x hlt => simp; omega
    | get _ x => simp at ih; omega
    | miss => exact Nat.zero_le n

/-- A prefix of a history is a history. -/
theorem Run.of_append (pre post : List (Event α)) {q : List α} (h : Run n (pre ++ post) q) :
    ∃ q', Run n pre q' := by
  induction post using List.reverseRecOn generalizing q with
  | nil => exact ⟨q, by simpa using h⟩
  | append_singleton post e ih =>
    rw [← List.append_assoc] at h
    generalize hes : (pre ++ post) ++ [e] = es at h
    cases h with
    | nil => simp at hes
    | snoc h hs =>
      obtain ⟨h1, -⟩ := List.append_inj' hes rfl
      exact ih (h1 ▸ h)

/-- **An unsuccessful `get` found the queue empty**: everything put before had been got. -/
theorem Run.miss {pre post : List (Event α)} {q : List α}
    (h : Run n (pre ++ .get none :: post) q) : puts pre = gets pre := by
  obtain ⟨q', hq'⟩ := Run.of_append (pre ++ [.get none]) post (by simpa using h)
  generalize hes : pre ++ [Event.get none] = es at hq'
  cases hq' with
  | nil => simp at hes
  | snoc h hs =>
    obtain ⟨h1, h2⟩ := List.append_inj' hes rfl
    subst h1
    obtain rfl : Event.get none = _ := by simpa using h2
    cases hs
    simpa using h.fifo

/-! ## A queue that never blocks -/

/-- A put that is ignored when there is no room. -/
def offer (n : Nat) (q : List α) (x : α) : List α := if q.length < n then q ++ [x] else q

/-- A put that drops the oldest item when there is no room. -/
def overwrite (n : Nat) (q : List α) (x : α) : List α :=
  if q.length < n then q ++ [x] else q.tail ++ [x]

/-- A get: the oldest item, if there is one, and what is left. -/
def poll : List α → Option α × List α
  | [] => (none, [])
  | x :: q => (some x, q)

end SystemProgramming.Lib.Fifo
