import SystemProgramming.Lib.Transition
import SystemProgramming.Words.CountReader
import SystemProgramming.Words.Fwords
import SystemProgramming.Words.Pipes

/-!
# The processes of `fwords`

`main` of `fwords.c` as a parent and its children, which run at the same time and meet only at the
pipes. A pipe holds `capacity` bytes; a child writes its text in the blocks that `stdio` makes of
it, and waits for room; the parent reads what there is, and waits while there is nothing and the
child still has the pipe open. `waitpid` does not wait (`WNOHANG`).

Every process has its table of descriptors. A pipe is open for writing while a process has its write
end, and a write raises `SIGPIPE` once no process has the read end: every child inherits the read
ends of the pipes before its own. `fork`, `pipe` and `fdopen` are taken to succeed. A child's file
takes a descriptor that is no end of a pipe and is left out.

* `Tables` says which ends the processes have while the descriptors come in a row (`RowFree`):
  a write end is its child's only (`Tables.writeEnd_iff`).
* `Inv` says which part of every text is in its pipe and which the parent has read. `Inv.step` keeps
  it.
-/

namespace SystemProgramming.Words.Fwords

open Lib

/-! ## What the processes compute -/

/-- What a child does with its file. -/
def childOf : Option Stream → Child
  | none => ⟨[], [.perror (bytes "fopen argv")], 1⟩
  | some f => ⟨fprintWords (childCounts f), [], 2⟩

theorem mergeChildren_append (wclist : List WordCount) (l l' : List Child) :
    mergeChildren wclist (l ++ l') =
      ((mergeChildren (mergeChildren wclist l).1 l').1,
        (mergeChildren wclist l).2 ++ (mergeChildren (mergeChildren wclist l).1 l').2) := by
  induction l generalizing wclist with
  | nil => rfl
  | cons child l ih =>
    rw [List.cons_append, mergeChildren, ih, mergeChildren]
    simp only [List.append_assoc]

/-! ## The system -/

/-- What a run starts from: the files, of which there is one at least, the descriptors that are
open, the capacity of a pipe, and the blocks that every child writes. -/
structure Setting where
  argv : List (Option Stream)
  argv_ne_nil : argv ≠ []
  opened : Finset Nat
  std_opened : 0 ∈ opened ∧ 1 ∈ opened ∧ 2 ∈ opened
  capacity : Nat
  blocks : Fin argv.length → List Str
  flatten_blocks : ∀ t, (blocks t).flatten = (childOf argv[t]).pipe
  fits : ∀ t, ∀ b ∈ blocks t, b.length ≤ capacity

/-- The number of files. -/
abbrev Setting.files (S : Setting) : Nat := S.argv.length

/-- Where a child stands: before its `fork`, before its first `write`, before the first of some
blocks, or after its end. -/
inductive ChildPhase
  | unborn
  | counting
  | writing (blocks : List Str)
  | ended (status : Nat)
  | killed
  deriving DecidableEq

/-- A child, what it has written to `stderr`, what is in its pipe, and its descriptors. -/
structure ChildProcess where
  phase : ChildPhase
  stderr : List Diagnostic
  pipe : Str
  table : Descriptors End

/-- Where the parent stands: before the `fork` of child `t`, in `merge_counts` on pipe `t`, or
after its end. -/
inductive ParentPhase
  | forking (t : Nat)
  | merging (t : Nat) (reader : Reader)
  | ended (exit : Exit)
  deriving DecidableEq

/-- The descriptors of the child are open. -/
def ChildPhase.alive : ChildPhase → Bool
  | .counting | .writing _ => true
  | _ => false

/-- The child has ended, or it has been killed. -/
def ChildPhase.over : ChildPhase → Bool
  | .ended _ | .killed => true
  | _ => false

/-- The child has not tried to open its file yet. -/
def ChildPhase.early : ChildPhase → Bool
  | .unborn | .counting => true
  | _ => false

/-- The state of all processes: the parent with its array `fd`, in pairs, and its descriptors, and
the children. -/
structure State (S : Setting) where
  parent : ParentPhase
  stderr : List Diagnostic
  fd : List (Nat × Nat)
  table : Descriptors End
  child : Fin S.files → ChildProcess

/-- The state at the start. -/
def State.start (S : Setting) : State S where
  parent := .forking 0
  stderr := []
  fd := []
  table := startTable S.opened
  child := fun _ => ⟨.unborn, [], [], startTable S.opened⟩

variable {S : Setting}

/-- Child `t` goes on. -/
def State.goto (s : State S) (t : Fin S.files) (p : ChildProcess) : State S :=
  { s with child := Function.update s.child t p }

/-- The number of pipes the parent has closed. -/
def State.merged (s : State S) : Nat :=
  match s.parent with
  | .forking _ => 0
  | .merging t _ => t
  | .ended _ => S.files

/-- Some process that has not ended has the end `e` of a pipe. -/
def State.IsOpen (s : State S) (e : End) : Prop :=
  ((∀ exit, s.parent ≠ .ended exit) ∧ ∃ d, s.table.file d = some e) ∨
    ∃ u, (s.child u).phase.alive = true ∧ ∃ d, (s.child u).table.file d = some e

/-- A step of a process. -/
inductive Step (s : State S) : State S → Prop
  /-- `pipe`, `fork`, the child's `close(fd[2*t])`, and the parent's `close(fd[2*t]+1)`. -/
  | fork (t : Fin S.files) (hp : s.parent = .forking t) :
      Step s { s.goto t ⟨.counting, [], [], childTable t s.table⟩ with
        parent := .forking (t + 1)
        fd := s.fd ++ [(parentRound t s.table).1]
        table := (parentRound t s.table).2 }
  | forked (hp : s.parent = .forking S.files) :
      Step s { s with parent := .merging 0 ⟨[], .line⟩ }
  /-- A child reads its file, or finds that it cannot. -/
  | count (t : Fin S.files) (hc : (s.child t).phase = .counting) :
      Step s (s.goto t { s.child t with
        phase := .writing (S.blocks t)
        stderr := (childOf S.argv[t]).stderr })
  | write (t : Fin S.files) (b : Str) (bs : List Str) (hc : (s.child t).phase = .writing (b :: bs))
      (hr : s.IsOpen (.readEnd t)) (hroom : (s.child t).pipe.length + b.length ≤ S.capacity) :
      Step s (s.goto t { s.child t with phase := .writing bs, pipe := (s.child t).pipe ++ b })
  /-- `SIGPIPE`. -/
  | signal (t : Fin S.files) (b : Str) (bs : List Str)
      (hc : (s.child t).phase = .writing (b :: bs)) (hr : ¬ s.IsOpen (.readEnd t)) :
      Step s (s.goto t { s.child t with phase := .killed })
  | exit (t : Fin S.files) (hc : (s.child t).phase = .writing []) :
      Step s (s.goto t { s.child t with phase := .ended (childOf S.argv[t]).status })
  /-- `read` of `fd[2*t]` gets some of what is in the pipe. -/
  | read (t : Fin S.files) (reader : Reader) (fd : Nat × Nat) (chunk rest : Str)
      (hp : s.parent = .merging t reader) (hf : reader.place ≠ .failed)
      (hfd : s.fd[(t : Nat)]? = some fd ∧ s.table.file fd.1 = some (.readEnd t))
      (hpipe : (s.child t).pipe = chunk ++ rest) (hne : chunk ≠ []) :
      Step s { s.goto t { s.child t with pipe := rest } with
        parent := .merging t (chunk.foldl Reader.feed reader) }
  /-- The end of `merge_counts`, on a byte that does not match or at the end of the file, which is
  where no process has the write end any more, and `fclose`. -/
  | close (t : Fin S.files) (reader : Reader) (fd : Nat × Nat) (hp : s.parent = .merging t reader)
      (hfd : s.fd[(t : Nat)]? = some fd ∧ s.table.file fd.1 = some (.readEnd t))
      (hend : reader.place = .failed ∨
        ((s.child t).pipe = [] ∧ ¬ s.IsOpen (.writeEnd t))) :
      Step s { s with
        parent := .merging (t + 1) ⟨reader.finish.1, .line⟩
        stderr := s.stderr ++ reader.finish.2
        table := s.table.close fd.1 }
  | print (reader : Reader) (text : Str) (hp : s.parent = .merging S.files reader)
      (ho : output lwords reader.wclist = some text) :
      Step s { s with parent := .ended ⟨0, text⟩ }

/-- The runs of `fwords`. -/
def system (S : Setting) : System (State S) where
  init := fun s => s = .start S
  next := Step

/-! ## The descriptors -/

variable {s s' : State S} {t u : Fin S.files} {got : Str}

@[simp] theorem goto_child_self (s : State S) (t : Fin S.files) (p : ChildProcess) :
    (s.goto t p).child t = p := Function.update_self ..

@[simp] theorem goto_child_of_ne (s : State S) {t u : Fin S.files} (h : u ≠ t) (p : ChildProcess) :
    (s.goto t p).child u = s.child u := Function.update_of_ne h ..

/-- The ends a child has: the read ends of the pipes before its own, and its write end. -/
structure ChildEnds (t : Fin S.files) (table : Descriptors End) : Prop where
  readEnd : ∀ k, (∃ d, table.file d = some (.readEnd k)) ↔ k < t
  writeEnd : ∀ k, (∃ d, table.file d = some (.writeEnd k)) ↔ k = t

/-- **Which ends the processes have.** -/
structure Tables (s : State S) : Prop where
  forking : ∀ k, s.parent = .forking k → k ≤ S.files ∧ Row S.opened k (s.fd, s.table) ∧
    ∀ u, (s.child u).phase ≠ .unborn → u < k
  merging : ∀ k reader, s.parent = .merging k reader → k ≤ S.files ∧
    s.fd = (List.range S.files).map
      (fun j => (firstFree S.opened + j, firstFree S.opened + j + 1)) ∧
    ReadEnds S.opened k S.files s.table
  child : ∀ u, (s.child u).phase ≠ .unborn → ChildEnds u (s.child u).table

namespace Tables

theorem start : Tables (State.start S) where
  forking := fun k hk => by
    obtain rfl : 0 = k := ParentPhase.forking.inj hk
    exact ⟨Nat.zero_le _, row_start S.opened, fun u hu => absurd rfl hu⟩
  merging := fun k reader hk => absurd hk (by simp [State.start])
  child := fun u hu => absurd rfl hu

/-- **A child goes on** with the descriptors it has. -/
theorem goto (h : Tables s) {p : ChildProcess} (htable : p.table = (s.child t).table)
    (hold : (s.child t).phase ≠ .unborn) : Tables (s.goto t p) := by
  have hborn : ∀ u, ((s.goto t p).child u).phase ≠ .unborn → (s.child u).phase ≠ .unborn :=
    fun u hu => by
      by_cases hut : u = t
      · exact hut ▸ hold
      · rwa [goto_child_of_ne s hut] at hu
  refine ⟨fun k hk => ?_, h.merging, fun u hu => ?_⟩
  · obtain ⟨hle, hrow, hlt⟩ := h.forking k hk
    exact ⟨hle, hrow, fun u hu => hlt u (hborn u hu)⟩
  · by_cases hut : u = t
    · subst hut
      rw [goto_child_self, htable]
      exact h.child u hold
    · rw [goto_child_of_ne s hut]
      exact h.child u (hborn u hu)

/-- **`fork`.** -/
theorem fork (h : Tables s) (hrow : RowFree S.opened S.files) (hp : s.parent = .forking t) :
    Tables { s.goto t ⟨.counting, [], [], childTable t s.table⟩ with
      parent := .forking (t + 1)
      fd := s.fd ++ [(parentRound t s.table).1]
      table := (parentRound t s.table).2 } := by
  obtain ⟨-, hr, hlt⟩ := h.forking t hp
  have hfree : RowFree S.opened (t + 1) := hrow.mono t.isLt
  refine ⟨fun k hk => ?_, fun k reader hk => absurd hk (by simp), fun u hu => ?_⟩
  · obtain rfl : (t : Nat) + 1 = k := ParentPhase.forking.inj hk
    refine ⟨t.isLt, hr.round hfree, fun u hu => ?_⟩
    by_cases hut : u = t
    · rw [hut]
      exact Nat.lt_succ_self _
    · dsimp only at hu
      rw [goto_child_of_ne s hut] at hu
      exact Nat.lt_succ_of_lt (hlt u hu)
  · dsimp only at hu ⊢
    by_cases hut : u = t
    · subst hut
      rw [goto_child_self]
      exact ⟨fun k => hr.childTable_readEnd hfree, fun k => hr.childTable_writeEnd hfree⟩
    · rw [goto_child_of_ne s hut] at hu ⊢
      exact h.child u hu

/-- **Every step keeps the tables right.** -/
theorem step (h : Tables s) (hrow : RowFree S.opened S.files) (hs : Step s s') : Tables s' := by
  cases hs with
  | fork t hp => exact h.fork hrow hp
  | forked hp =>
    obtain ⟨-, hr, -⟩ := h.forking _ hp
    refine ⟨fun k hk => absurd hk (by simp), fun k reader hk => ?_, h.child⟩
    obtain ⟨rfl, -⟩ := ParentPhase.merging.inj hk
    exact ⟨Nat.zero_le _, hr.fd, hr.readEnds⟩
  | count t hc => exact h.goto rfl (by rw [hc]; simp)
  | write t b bs hc hr hroom => exact h.goto rfl (by rw [hc]; simp)
  | signal t b bs hc hr => exact h.goto rfl (by rw [hc]; simp)
  | exit t hc => exact h.goto rfl (by rw [hc]; simp)
  | read t reader fd chunk rest hp hf hfd hpipe hne =>
    refine ⟨fun k hk => absurd hk (by simp), fun k reader' hk => ?_, fun u hu => ?_⟩
    · obtain ⟨rfl, -⟩ := ParentPhase.merging.inj hk
      exact h.merging t reader hp
    · dsimp only at hu ⊢
      by_cases hut : u = t
      · subst hut
        rw [goto_child_self] at hu ⊢
        exact h.child u hu
      · rw [goto_child_of_ne s hut] at hu ⊢
        exact h.child u hu
  | close t reader fd hp hfd hend =>
    obtain ⟨-, hfds, hends⟩ := h.merging t reader hp
    refine ⟨fun k hk => absurd hk (by simp), fun k reader' hk => ?_, h.child⟩
    obtain ⟨rfl, -⟩ := ParentPhase.merging.inj hk
    have hnth : s.fd[(t : Nat)]? = some (firstFree S.opened + t, firstFree S.opened + t + 1) := by
      rw [hfds]
      simp
    obtain rfl := Option.some.inj (hnth.symm.trans hfd.1)
    exact ⟨t.isLt, hfds, hends.close (hrow.not_mem (Nat.le_of_lt t.isLt))⟩
  | print reader text hp ho =>
    exact ⟨fun k hk => absurd hk (by simp), fun k reader hk => absurd hk (by simp), h.child⟩

/-- The ends that a running child has. -/
theorem childEnds (h : Tables s) (hu : (s.child u).phase.alive = true) :
    ChildEnds u (s.child u).table := by
  refine h.child u fun hunborn => ?_
  rw [hunborn] at hu
  exact absurd hu (by simp [ChildPhase.alive])

/-- Where the parent reads. -/
theorem fd_eq (h : Tables s) (hrow : RowFree S.opened S.files) {reader : Reader}
    (hp : s.parent = .merging t reader) :
    ∃ fd, s.fd[(t : Nat)]? = some fd ∧ s.table.file fd.1 = some (.readEnd t) := by
  obtain ⟨-, hfds, hends⟩ := h.merging t reader hp
  refine ⟨(firstFree S.opened + t, firstFree S.opened + t + 1), ?_, ?_⟩
  · rw [hfds]
    simp
  · exact hends.file_eq hrow (Nat.le_refl _) t.isLt

/-- **The read end of a pipe** is open while the parent has not closed it or a later child lives. -/
theorem readEnd_iff (h : Tables s) (hrow : RowFree S.opened S.files)
    (hborn : (s.child t).phase ≠ .unborn) :
    s.IsOpen (.readEnd t) ↔ s.merged ≤ t ∨ ∃ u, t < u ∧ (s.child u).phase.alive = true := by
  have hchild : ∀ u, (s.child u).phase.alive = true →
      ((∃ d, (s.child u).table.file d = some (.readEnd t)) ↔ t < u) :=
    fun u hu => (h.childEnds hu).readEnd t
  have hparent : ((∀ exit, s.parent ≠ .ended exit) ∧ ∃ d, s.table.file d = some (.readEnd t)) ↔
      s.merged ≤ t := by
    cases hp : s.parent with
    | forking k =>
      obtain ⟨hle, hr, hlt⟩ := h.forking k hp
      rw [hr.readEnds.readEnd_iff (hrow.mono hle), State.merged, hp]
      exact iff_of_true ⟨by simp, Nat.zero_le _, hlt t hborn⟩ (Nat.zero_le _)
    | merging k reader =>
      obtain ⟨hle, -, hends⟩ := h.merging k reader hp
      rw [hends.readEnd_iff hrow, State.merged, hp]
      exact ⟨fun hr => hr.2.1, fun hr => ⟨by simp, hr, t.isLt⟩⟩
    | ended exit =>
      rw [State.merged, hp]
      exact iff_of_false (fun hr => hr.1 exit rfl) (Nat.not_le_of_lt t.isLt)
  unfold State.IsOpen
  rw [hparent]
  refine or_congr_right ⟨?_, ?_⟩
  · rintro ⟨u, hu, hd⟩
    exact ⟨u, (hchild u hu).mp hd, hu⟩
  · rintro ⟨u, htu, hu⟩
    exact ⟨u, hu, (hchild u hu).mpr htu⟩

/-- **The write end of a pipe** is its child's only. -/
theorem writeEnd_iff (h : Tables s) : s.IsOpen (.writeEnd t) ↔ (s.child t).phase.alive = true := by
  have hchild : ∀ u, (s.child u).phase.alive = true →
      ((∃ d, (s.child u).table.file d = some (.writeEnd t)) ↔ (t : Nat) = u) :=
    fun u hu => (h.childEnds hu).writeEnd t
  refine ⟨?_, fun ht => Or.inr ⟨t, ht, (hchild t ht).mpr rfl⟩⟩
  rintro (⟨hrun, d, hd⟩ | ⟨u, hu, hd⟩)
  · cases hp : s.parent with
    | forking k => exact absurd hd ((h.forking k hp).2.1.readEnds.writeEnd_ne d)
    | merging k reader => exact absurd hd ((h.merging k reader hp).2.2.writeEnd_ne d)
    | ended exit => exact absurd hp (hrun exit)
  · exact Fin.ext ((hchild u hu).mp hd) ▸ hu

end Tables

theorem tables_of_reachable (hrow : RowFree S.opened S.files) (h : (system S).Reachable s) :
    Tables s :=
  System.invariant (fun _ h0 => h0 ▸ Tables.start) (fun _ _ _ hi hs => hi.step hrow hs) h

/-! ## The invariant -/

section Invariant

variable (S)

/-- The text of child `t`. -/
def text (t : Fin S.files) : Str := (childOf S.argv[t]).pipe

/-- What the parent has when it has merged the first `k` texts as a whole. -/
def before (k : Nat) : List WordCount × List Diagnostic :=
  mergeChildren [] ((S.argv.map childOf).take k)

/-- The parent complains about the text of child `t`. -/
def Complains (t : Fin S.files) : Prop :=
  (mergeCounts true (before S t).1 (text S t)).stderr ≠ []

/-- What child `t` has not written yet. -/
def unsent (t : Fin S.files) : ChildPhase → Str
  | .unborn | .counting => text S t
  | .writing blocks => blocks.flatten
  | _ => []

/-- The invariant of child `t`, when the parent has closed `k` pipes and has read `got` from the
next one. -/
structure ChildOk (k : Nat) (got : Str) (t : Fin S.files) (p : ChildProcess) : Prop where
  bytes : k ≤ t → (if (t : Nat) = k then got else []) ++ (p.pipe ++ unsent S t p.phase) = text S t
  closed : t < k → p.phase.over = true ∨ Complains S t
  killed : p.phase = .killed → t < k ∧ Complains S t
  status : ∀ st, p.phase = .ended st → st = (childOf S.argv[t]).status
  stderr : p.stderr = if p.phase.early = true then [] else (childOf S.argv[t]).stderr
  fits : ∀ blocks, p.phase = .writing blocks → ∀ b ∈ blocks, b.length ≤ S.capacity

end Invariant

/-- The invariant of the parent, which has read `got` from its pipe. -/
def ParentOk (s : State S) (got : Str) : Prop :=
  match s.parent with
  | .forking k => k ≤ S.files ∧ got = [] ∧ s.stderr = [] ∧
      ∀ t, (s.child t).phase = .unborn ↔ k ≤ t
  | .merging k reader => k ≤ S.files ∧ reader = got.foldl Reader.feed ⟨(before S k).1, .line⟩ ∧
      s.stderr = (before S k).2 ∧ (k = S.files → got = []) ∧ ∀ t, (s.child t).phase ≠ .unborn
  | .ended exit => output lwords (before S S.files).1 = some exit.stdout ∧ exit.status = 0 ∧
      s.stderr = (before S S.files).2 ∧ ∀ t, (s.child t).phase ≠ .unborn

/-- **The invariant.** -/
def Inv (s : State S) : Prop :=
  ∃ got, ParentOk s got ∧ ∀ t, ChildOk S s.merged got t (s.child t)

theorem before_succ (t : Fin S.files) :
    before S (t + 1) =
      ((mergeCounts true (before S t).1 (text S t)).wclist,
        (before S t).2 ++ (mergeCounts true (before S t).1 (text S t)).stderr) := by
  have htake : (S.argv.map childOf).take (t + 1) =
      (S.argv.map childOf).take t ++ [childOf S.argv[t]] := by
    rw [List.take_add_one, List.getElem?_map, List.getElem?_eq_getElem t.isLt]
    rfl
  unfold before
  rw [htake, mergeChildren_append, mergeChildren, mergeChildren, List.append_nil]
  rfl

theorem before_files : before S S.files = mergeChildren [] (S.argv.map childOf) := by
  rw [before, List.take_of_length_le (by rw [List.length_map])]

theorem inv_start : Inv (State.start S) := by
  refine ⟨[], ⟨Nat.zero_le _, rfl, rfl, fun t => iff_of_true rfl (Nat.zero_le _)⟩, fun t => ?_⟩
  refine ⟨?_, fun h => absurd h (Nat.not_lt_zero _), fun h => absurd h (by simp [State.start]),
    fun st h => absurd h (by simp [State.start]), rfl, fun bs h => absurd h (by simp [State.start])⟩
  intro _
  rw [ite_self]
  rfl

/-- The parent's invariant asks of the children only which are born. -/
theorem ParentOk.congr (h : ParentOk s got) (hp : s'.parent = s.parent)
    (he : s'.stderr = s.stderr)
    (hb : ∀ u, (s'.child u).phase = .unborn ↔ (s.child u).phase = .unborn) : ParentOk s' got := by
  rw [ParentOk] at h ⊢
  rw [hp]
  cases hs : s.parent with
  | forking k =>
    rw [hs] at h
    obtain ⟨hk, hg, herr, hu⟩ := h
    exact ⟨hk, hg, he.trans herr, fun u => (hb u).trans (hu u)⟩
  | merging k reader =>
    rw [hs] at h
    obtain ⟨hk, hr, herr, hg, hu⟩ := h
    exact ⟨hk, hr, he.trans herr, hg, fun u => mt (hb u).mp (hu u)⟩
  | ended exit =>
    rw [hs] at h
    obtain ⟨ho, hx, herr, hu⟩ := h
    exact ⟨ho, hx, he.trans herr, fun u => mt (hb u).mp (hu u)⟩

/-- **A step of a child** keeps the invariant if it keeps the child's own. -/
theorem Inv.goto (h : Inv s) {p : ChildProcess}
    (hp : ∀ got, ChildOk S s.merged got t (s.child t) → ChildOk S s.merged got t p)
    (hnew : p.phase ≠ .unborn) (hold : (s.child t).phase ≠ .unborn) : Inv (s.goto t p) := by
  obtain ⟨got, hparent, hchild⟩ := h
  refine ⟨got, hparent.congr rfl rfl fun u => ?_, fun u => ?_⟩
  · by_cases hu : u = t
    · subst hu
      rw [goto_child_self]
      exact iff_of_false hnew hold
    · rw [goto_child_of_ne s hu]
  · by_cases hu : u = t
    · subst hu
      rw [goto_child_self]
      exact hp got (hchild u)
    · rw [goto_child_of_ne s hu]
      exact hchild u

/-- A child that has not ended has an open pipe, or the parent has complained. -/
theorem ChildOk.complains {k : Nat} {p : ChildProcess} (h : ChildOk S k got t p)
    (ho : p.phase.over = false) (hk : t < k) : Complains S t :=
  (h.closed hk).resolve_left (by rw [ho]; simp)

/-- **The end of `merge_counts`**: the parent has what it gets from the text as a whole. It stops
early only to complain. -/
theorem finish_of_close {p : ChildProcess} (h : ChildOk S t got t p)
    (hend : (got.foldl Reader.feed ⟨(before S t).1, .line⟩).place = .failed ∨
      (p.pipe = [] ∧ p.phase.over = true)) :
    (got.foldl Reader.feed ⟨(before S t).1, .line⟩).finish =
        ((mergeCounts true (before S t).1 (text S t)).wclist,
          (mergeCounts true (before S t).1 (text S t)).stderr) ∧
      (p.phase.over = true ∨ Complains S t) := by
  have hbytes := h.bytes (Nat.le_refl _)
  rw [if_pos rfl] at hbytes
  rcases hend with hf | ⟨hpipe, hover⟩
  · generalize hr : got.foldl Reader.feed ⟨(before S t).1, .line⟩ = reader at hf ⊢
    obtain ⟨wclist, place⟩ := reader
    subst hf
    have hall : (text S t).foldl Reader.feed ⟨(before S t).1, .line⟩ = ⟨wclist, .failed⟩ := by
      rw [← hbytes, List.foldl_append, hr, foldl_feed_failed]
    have hfinish := finish_foldl_feed (before S t).1 (text S t)
    rw [hall] at hfinish
    refine ⟨hfinish, Or.inr ?_⟩
    unfold Complains
    rw [← (Prod.mk.inj hfinish).2]
    exact List.cons_ne_nil _ _
  · have hunsent : unsent S t p.phase = [] := by
      cases hph : p.phase with
      | ended st => rfl
      | killed => rfl
      | _ => exact absurd hover (by rw [hph]; simp [ChildPhase.over])
    rw [hpipe, hunsent, List.append_nil, List.append_nil] at hbytes
    rw [hbytes]
    exact ⟨finish_foldl_feed _ _, Or.inl hover⟩

/-- A child that has ended does not live. -/
theorem not_alive_of_over {phase : ChildPhase} (h : phase.over = true) : ¬ phase.alive = true := by
  cases phase <;> simp_all [ChildPhase.over, ChildPhase.alive]

/-- A child that is born and does not live has ended. -/
theorem over_of_not_alive {phase : ChildPhase} (hborn : phase ≠ .unborn)
    (halive : phase.alive ≠ true) : phase.over = true := by
  cases phase with
  | unborn => exact absurd rfl hborn
  | counting => exact absurd rfl halive
  | writing blocks => exact absurd rfl halive
  | ended st => rfl
  | killed => rfl

/-- **Every step keeps the invariant.** -/
theorem Inv.step (h : Inv s) (htables : Tables s) (hrow : RowFree S.opened S.files)
    (hs : Step s s') : Inv s' := by
  cases hs with
  | fork t hp =>
    obtain ⟨got, hparent, hchild⟩ := h
    rw [ParentOk, hp] at hparent
    obtain ⟨hk, rfl, he, hu⟩ := hparent
    have hm : s.merged = 0 := by rw [State.merged, hp]
    refine ⟨[], ⟨t.isLt, rfl, he, fun u => ?_⟩, fun u => ?_⟩
    · by_cases hut : u = t
      · subst hut
        rw [show _ = (_ : ChildProcess) from goto_child_self s u _]
        exact iff_of_false (by simp) (by omega)
      · rw [show _ = (_ : ChildProcess) from goto_child_of_ne s hut _, hu u]
        have : (u : Nat) ≠ t := fun h => hut (Fin.ext h)
        omega
    · show ChildOk S 0 [] u ((s.goto t _).child u)
      by_cases hut : u = t
      · subst hut
        rw [goto_child_self]
        refine ⟨fun _ => by rw [ite_self]; rfl, fun h => absurd h (Nat.not_lt_zero _),
          fun h => absurd h (by simp), fun st h => absurd h (by simp), rfl,
          fun bs h => absurd h (by simp)⟩
      · rw [goto_child_of_ne s hut]
        exact hm ▸ hchild u
  | forked hp =>
    obtain ⟨got, hparent, hchild⟩ := h
    rw [ParentOk, hp] at hparent
    obtain ⟨hk, rfl, he, hu⟩ := hparent
    have hm : s.merged = 0 := by rw [State.merged, hp]
    refine ⟨[], ⟨Nat.zero_le _, rfl, he, fun _ => rfl, fun u h => ?_⟩, fun u => hm ▸ hchild u⟩
    exact absurd ((hu u).mp h) (by omega)
  | count t hc =>
    refine h.goto (fun got ht => ?_) (by simp) (by rw [hc]; simp)
    refine ⟨fun hk => ?_, fun hk => Or.inr (ht.complains (by rw [hc]; rfl) hk),
      fun h => absurd h (by simp), fun st h => absurd h (by simp), rfl,
      fun blocks h => ChildPhase.writing.inj h ▸ S.fits t⟩
    have := ht.bytes hk
    rw [hc] at this
    show _ ++ ((s.child t).pipe ++ (S.blocks t).flatten) = _
    rw [S.flatten_blocks]
    exact this
  | write t b bs hc hr hroom =>
    refine h.goto (fun got ht => ?_) (by simp) (by rw [hc]; simp)
    refine ⟨fun hk => ?_, fun hk => Or.inr (ht.complains (by rw [hc]; rfl) hk),
      fun h => absurd h (by simp), fun st h => absurd h (by simp), ?_, fun blocks h => ?_⟩
    · have := ht.bytes hk
      rw [hc] at this
      show _ ++ ((s.child t).pipe ++ b ++ bs.flatten) = _
      rw [List.append_assoc (s.child t).pipe, ← List.flatten_cons]
      exact this
    · have := ht.stderr
      rw [hc] at this
      exact this
    · obtain rfl := ChildPhase.writing.inj h
      exact fun b' hb' => ht.fits _ hc b' (List.mem_cons_of_mem b hb')
  | signal t b bs hc hr =>
    refine h.goto (fun got ht => ?_) (by simp) (by rw [hc]; simp)
    have hk : t < s.merged := Nat.lt_of_not_le fun hle =>
      hr ((htables.readEnd_iff hrow (by rw [hc]; simp)).mpr (Or.inl hle))
    have hcomplains := ht.complains (by rw [hc]; rfl) hk
    refine ⟨fun h => absurd h (Nat.not_le_of_lt hk), fun _ => Or.inl rfl,
      fun _ => ⟨hk, hcomplains⟩, fun st h => absurd h (by simp), ?_, fun bs h => absurd h (by simp)⟩
    have := ht.stderr
    rw [hc] at this
    exact this
  | exit t hc =>
    refine h.goto (fun got ht => ?_) (by simp) (by rw [hc]; simp)
    refine ⟨fun hk => ?_, fun _ => Or.inl rfl, fun h => absurd h (by simp),
      fun st h => (ChildPhase.ended.inj h).symm, ?_, fun bs h => absurd h (by simp)⟩
    · have := ht.bytes hk
      rw [hc] at this
      exact this
    · have := ht.stderr
      rw [hc] at this
      exact this
  | read t reader fd chunk rest hp hf hfd hpipe hne =>
    obtain ⟨got, hparent, hchild⟩ := h
    rw [ParentOk, hp] at hparent
    obtain ⟨hk, hr, he, hg, hu⟩ := hparent
    have hm : s.merged = t := by rw [State.merged, hp]
    rw [hm] at hchild
    refine ⟨got ++ chunk, ⟨hk, ?_, he, fun h => absurd h (Nat.ne_of_lt t.isLt), fun u => ?_⟩,
      fun u => ?_⟩
    · rw [List.foldl_append, hr]
    · by_cases hut : u = t
      · subst hut
        rw [show _ = (_ : ChildProcess) from goto_child_self s u _]
        exact hu u
      · rw [show _ = (_ : ChildProcess) from goto_child_of_ne s hut _]
        exact hu u
    · show ChildOk S t (got ++ chunk) u ((s.goto t _).child u)
      by_cases hut : u = t
      · subst hut
        rw [goto_child_self]
        have ht := hchild u
        refine ⟨fun hk => ?_, ht.closed, ht.killed, ht.status, ht.stderr, ht.fits⟩
        have := ht.bytes hk
        rw [if_pos rfl, hpipe] at this
        rw [if_pos rfl, ← this]
        simp only [List.append_assoc]
      · rw [goto_child_of_ne s hut]
        have hut' : (u : Nat) ≠ t := fun h => hut (Fin.ext h)
        have ht := hchild u
        refine ⟨fun hk => ?_, ht.closed, ht.killed, ht.status, ht.stderr, ht.fits⟩
        have := ht.bytes hk
        rwa [if_neg hut'] at this ⊢
  | close t reader fd hp hfd hend =>
    obtain ⟨got, hparent, hchild⟩ := h
    rw [ParentOk, hp] at hparent
    obtain ⟨hk, rfl, he, hg, hu⟩ := hparent
    have hm : s.merged = t := by rw [State.merged, hp]
    rw [hm] at hchild
    -- the end of the file: the child, which alone has the write end, is over
    have hover : ¬ s.IsOpen (.writeEnd t) → (s.child t).phase.over = true := fun hno =>
      over_of_not_alive (hu t) fun ha => hno (htables.writeEnd_iff.mpr ha)
    obtain ⟨hfinish, hclosed⟩ := finish_of_close (hchild t) (hend.imp_right (And.imp_right hover))
    refine ⟨[], ⟨t.isLt, ?_, ?_, fun _ => rfl, hu⟩, fun u => ?_⟩
    · rw [List.foldl_nil, before_succ, hfinish]
    · rw [he, hfinish, before_succ]
    · have ht := hchild u
      show ChildOk S (t + 1) [] u (s.child u)
      refine ⟨fun hk => ?_, fun hk => ?_, fun h => ⟨?_, (ht.killed h).2⟩, ht.status, ht.stderr,
        ht.fits⟩
      · have := ht.bytes (by omega)
        rw [if_neg (by omega)] at this
        rwa [ite_self]
      · by_cases hut : u = t
        · subst hut
          exact hclosed
        · have hut' : (u : Nat) ≠ t := fun h => hut (Fin.ext h)
          exact ht.closed (by omega)
      · exact Nat.lt_succ_of_lt (ht.killed h).1
  | print reader text hp ho =>
    obtain ⟨got, hparent, hchild⟩ := h
    rw [ParentOk, hp] at hparent
    obtain ⟨-, rfl, he, hg, hu⟩ := hparent
    have hm : s.merged = S.files := by rw [State.merged, hp]
    rw [hg rfl] at ho
    refine ⟨got, ⟨ho, rfl, he, hu⟩, fun u => ?_⟩
    show ChildOk S S.files got u (s.child u)
    exact hm ▸ hchild u

theorem inv_of_reachable (hrow : RowFree S.opened S.files) (h : (system S).Reachable s) : Inv s :=
  System.invariant (fun _ h0 => h0 ▸ inv_start)
    (fun _ _ hr hi hs => hi.step (tables_of_reachable hrow hr) hrow hs) h

end SystemProgramming.Words.Fwords
