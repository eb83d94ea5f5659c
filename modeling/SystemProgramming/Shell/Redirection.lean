import Mathlib.Data.List.ReduceOption
import SystemProgramming.Shell.CommandLine

/-!
# The descriptors of the shell

What a line does to the descriptors of the shell, and what its child has as standard output. The
variable `fd` is not initialised, so it starts with any value. A line that is no program, or one
with a `'<'` file that does not open, never closes it.

`Meets` is the condition, on the outcomes of the `'>'` operators, the value of `fd` and the table
before the line, under which a line leaves the descriptors as it found them.

* `run_file`, `loop_closed`, `loop_leaks`: the loop over the tokens opens what `'>'` opens.
* `parent_file`, `child_stdout`: what the branches of the parent and the child make of the table.
* `leavesAsFound_iff`: a line leaves the descriptors as it found them iff it meets the condition.
* `run_leavesAsFound_iff`: the same for the lines of a run.
-/

namespace SystemProgramming.Shell

open Lib

variable {φ : Type} (sys : Outcomes φ)

/-! ## The loop over the tokens -/

/-- The outcomes of the `'>'` operators, in order. -/
def outcomes (sys : Outcomes φ) (items : List Item) : List (Option φ) :=
  items.filterMap fun item => match item with
    | .output i target => some (target.bind (sys.openOut i))
    | _ => none

/-- All `'<'` files open. -/
def inputsOpen (sys : Outcomes φ) (items : List Item) : Bool :=
  items.all fun item => match item with
    | .input i target => (target.bind (sys.openIn i)).isSome
    | _ => true

/-- The loop over items. -/
def runItems (sys : Outcomes φ) (items : List Item) (v : Vars φ) : Vars φ :=
  items.foldl (fun v item => item.run sys v) v

theorem splice_frame (v : Vars φ) (words : List Str) :
    (splice v words).table = v.table ∧ (splice v words).fd = v.fd ∧
      (splice v words).valid = v.valid := by
  induction words generalizing v with
  | nil => exact ⟨rfl, rfl, rfl⟩
  | cons w words ih =>
    have hgrow : v.grow.table = v.table ∧ v.grow.fd = v.fd ∧ v.grow.valid = v.valid := by
      unfold Vars.grow
      split_ifs <;> exact ⟨rfl, rfl, rfl⟩
    obtain ⟨h1, h2, h3⟩ := ih (v.grow.put (some (cString w)))
    exact ⟨h1.trans hgrow.1, h2.trans hgrow.2.1, h3.trans hgrow.2.2⟩

/-- **What an item does to the descriptors.** A `'>'` that opens takes a free one and leaves its
number in `fd`, a `'>'` that does not leaves `-1`, and everything else leaves both alone. -/
theorem run_cases (item : Item) (v : Vars φ) :
    (outcomes sys [item] = [] ∧ (item.run sys v).table.file = v.table.file ∧
      (item.run sys v).fd = v.fd) ∨
    (outcomes sys [item] = [none] ∧ (item.run sys v).table.file = v.table.file ∧
      (item.run sys v).fd = -1) ∨
    ∃ f d, outcomes sys [item] = [some f] ∧ v.table.file d = none ∧
      (item.run sys v).table.file = Function.update v.table.file d (some (.other f)) ∧
      (item.run sys v).fd = d := by
  cases item with
  | word s => exact Or.inl ⟨rfl, rfl, rfl⟩
  | output i target =>
    refine Or.inr ?_
    cases h : target.bind (sys.openOut i) with
    | none =>
      refine Or.inl ⟨by simp [outcomes, h], ?_, ?_⟩ <;> rw [Item.run, openOutput_none h]
    | some f =>
      have hfree := v.table.lowestFree_spec.1
      refine Or.inr ⟨f, v.table.lowestFree, by simp [outcomes, h], hfree, ?_, ?_⟩ <;>
        rw [Item.run, openOutput_some h] <;> rfl
  | input i target =>
    refine Or.inl ⟨rfl, ?_⟩
    rw [Item.run]
    cases h : target.bind (sys.openIn i) with
    | none => exact ⟨by rw [openInput_none h], by rw [openInput_none h]⟩
    | some opened =>
      rw [openInput_some h]
      exact ⟨Descriptors.close_alloc_file v.table _, (splice_frame v _).2.1⟩

theorem run_valid (item : Item) (v : Vars φ) :
    (item.run sys v).valid = (v.valid && inputsOpen sys [item]) := by
  cases item with
  | word s => simp [Item.run, Vars.put, inputsOpen]
  | output i target =>
    rw [Item.run]
    cases h : target.bind (sys.openOut i) with
    | none => simp [openOutput_none h, inputsOpen]
    | some f => simp [openOutput_some h, inputsOpen]
  | input i target =>
    rw [Item.run]
    cases h : target.bind (sys.openIn i) with
    | none => simp [openInput_none h, inputsOpen, h]
    | some opened => simp [openInput_some h, inputsOpen, h, (splice_frame v _).2.2]

theorem outcomes_cons (item : Item) (items : List Item) :
    outcomes sys (item :: items) = outcomes sys [item] ++ outcomes sys items := by
  unfold outcomes
  rw [← List.filterMap_append, List.singleton_append]

theorem runItems_cons (item : Item) (items : List Item) (v : Vars φ) :
    runItems sys (item :: items) v = runItems sys items (item.run sys v) := rfl

theorem runItems_valid (items : List Item) (v : Vars φ) :
    (runItems sys items v).valid = (v.valid && inputsOpen sys items) := by
  induction items generalizing v with
  | nil => simp [runItems, inputsOpen]
  | cons item items ih =>
    rw [runItems_cons, ih, run_valid, Bool.and_assoc]
    simp [inputsOpen]

/-- An open descriptor keeps its file. -/
theorem run_frame (item : Item) {v : Vars φ} {n : Nat} (hn : v.table.file n ≠ none) :
    (item.run sys v).table.file n = v.table.file n := by
  rcases run_cases sys item v with ⟨-, hfile, -⟩ | ⟨-, hfile, -⟩ | ⟨f, d, -, hd, hfile, -⟩
  · rw [hfile]
  · rw [hfile]
  · rw [hfile, Function.update_of_ne]
    rintro rfl
    exact hn hd

theorem loop_frame (items : List Item) {v : Vars φ} {n : Nat} (hn : v.table.file n ≠ none) :
    (runItems sys items v).table.file n = v.table.file n := by
  induction items generalizing v with
  | nil => rfl
  | cons item items ih =>
    have hstep := run_frame sys item hn
    rw [runItems_cons, ih (by rwa [hstep]), hstep]

theorem free_of_run (item : Item) {v : Vars φ} {n : Nat}
    (hn : (item.run sys v).table.file n = none) : v.table.file n = none := by
  by_contra hne
  rw [run_frame sys item hne] at hn
  exact hne hn

/-- **When no `'>'` opens**, the loop leaves the descriptors alone. -/
theorem loop_closed (items : List Item) {v : Vars φ}
    (h : ∀ o ∈ outcomes sys items, o = none) :
    (runItems sys items v).table.file = v.table.file ∧
      (runItems sys items v).fd = if outcomes sys items = [] then v.fd else -1 := by
  induction items generalizing v with
  | nil => exact ⟨rfl, rfl⟩
  | cons item items ih =>
    rw [outcomes_cons] at h ⊢
    obtain ⟨hhead, htail⟩ := List.forall_mem_append.mp h
    obtain ⟨ihfile, ihfd⟩ := ih (v := item.run sys v) htail
    rw [runItems_cons, ihfile, ihfd]
    rcases run_cases sys item v with ⟨ho, hfile, hfd⟩ | ⟨ho, hfile, hfd⟩ | ⟨f, d, ho, -⟩
    · rw [ho, hfile, hfd, List.nil_append]
      exact ⟨rfl, rfl⟩
    · rw [ho, hfile, hfd, List.singleton_append, if_neg (List.cons_ne_nil _ _), ite_self]
      exact ⟨rfl, rfl⟩
    · exact absurd (hhead (some f) (by simp [ho])) (by simp)

/-- A `'>'` leaves `-1` or the number of a descriptor that was free. -/
theorem loop_fd (items : List Item) {v : Vars φ} (h : outcomes sys items ≠ []) :
    (runItems sys items v).fd = -1 ∨
      ∃ d : Nat, (runItems sys items v).fd = d ∧ v.table.file d = none := by
  induction items generalizing v with
  | nil => exact absurd rfl h
  | cons item items ih =>
    rw [runItems_cons]
    by_cases htail : outcomes sys items = []
    · obtain ⟨-, hfd⟩ := loop_closed sys (v := item.run sys v) items (by simp [htail])
      rw [hfd, if_pos htail]
      rw [outcomes_cons, htail, List.append_nil] at h
      rcases run_cases sys item v with ⟨ho, -⟩ | ⟨-, -, hfd⟩ | ⟨f, d, -, hd, -, hfd⟩
      · exact absurd ho h
      · exact Or.inl hfd
      · exact Or.inr ⟨d, hfd, hd⟩
    · refine (ih htail).imp_right ?_
      rintro ⟨d, hfd, hd⟩
      exact ⟨d, hfd, free_of_run sys item hd⟩

/-- **When only the last `'>'` opens**, the loop opens the one descriptor that is in `fd`. -/
theorem loop_last (items : List Item) {v : Vars φ}
    (h : ∀ o ∈ (outcomes sys items).dropLast, o = none) :
    (∀ o ∈ outcomes sys items, o = none) ∨
      ∃ f d, (outcomes sys items).reduceOption = [f] ∧ v.table.file d = none ∧
        (runItems sys items v).table.file =
          Function.update v.table.file d (some (.other f)) ∧
        (runItems sys items v).fd = d := by
  induction items generalizing v with
  | nil => exact Or.inl (by simp [outcomes])
  | cons item items ih =>
    rw [outcomes_cons] at h ⊢
    rw [runItems_cons]
    rcases run_cases sys item v with ⟨ho, hfile, -⟩ | ⟨ho, hfile, -⟩ |
      ⟨f, d, ho, hd, hfile, hfd⟩
    · rw [ho, List.nil_append] at h ⊢
      exact hfile ▸ ih h
    · rw [ho, List.singleton_append] at h ⊢
      have htail : ∀ o ∈ (outcomes sys items).dropLast, o = none := fun o hmem => by
        cases hout : outcomes sys items with
        | nil => simp [hout] at hmem
        | cons o' os =>
          rw [hout] at hmem h
          refine h o ?_
          rw [List.dropLast_cons_of_ne_nil (by simp)]
          exact List.mem_cons_of_mem _ hmem
      rw [List.reduceOption_cons_of_none]
      exact hfile ▸ (ih htail).imp_left fun hnone => List.forall_mem_cons.mpr ⟨rfl, hnone⟩
    · rw [ho, List.singleton_append] at h ⊢
      have htail : outcomes sys items = [] := by
        by_contra hne
        rw [List.dropLast_cons_of_ne_nil hne] at h
        exact absurd (h _ List.mem_cons_self) (by simp)
      obtain ⟨hfile', hfd'⟩ := loop_closed sys (v := item.run sys v) items (by simp [htail])
      rw [htail, if_pos rfl] at hfd'
      exact Or.inr ⟨f, d, by rw [htail]; rfl, hd, hfile'.trans hfile, hfd'.trans hfd⟩

/-- **When a `'>'` opens**, the loop opens a descriptor. -/
theorem loop_opens (items : List Item) {v : Vars φ}
    (h : ¬ ∀ o ∈ outcomes sys items, o = none) :
    ∃ n, v.table.file n = none ∧ (runItems sys items v).table.file n ≠ none := by
  induction items generalizing v with
  | nil => exact absurd (by simp [outcomes]) h
  | cons item items ih =>
    rw [runItems_cons]
    by_cases htail : ∀ o ∈ outcomes sys items, o = none
    · obtain ⟨hfile', -⟩ := loop_closed sys (v := item.run sys v) items htail
      rw [outcomes_cons, List.forall_mem_append, not_and_or] at h
      have hhead := h.resolve_right (not_not.mpr htail)
      rcases run_cases sys item v with ⟨ho, -⟩ | ⟨ho, -⟩ | ⟨f, d, ho, hd, hfile, -⟩
      · exact absurd (by simp [ho]) hhead
      · exact absurd (by simp [ho]) hhead
      · refine ⟨d, hd, ?_⟩
        rw [hfile', hfile, Function.update_self]
        simp
    · obtain ⟨n, hn, hn'⟩ := ih (v := item.run sys v) htail
      exact ⟨n, free_of_run sys item hn, hn'⟩

/-- **When a `'>'` opens that is not the last**, the loop opens a descriptor that is not in `fd`. -/
theorem loop_leaks (items : List Item) {v : Vars φ}
    (h : ¬ ∀ o ∈ (outcomes sys items).dropLast, o = none) :
    ∃ n, v.table.file n = none ∧ (runItems sys items v).table.file n ≠ none ∧
      (runItems sys items v).fd ≠ n := by
  induction items generalizing v with
  | nil => exact absurd (by simp [outcomes]) h
  | cons item items ih =>
    rw [runItems_cons]
    by_cases htail : ∀ o ∈ (outcomes sys items).dropLast, o = none
    · have hne : outcomes sys items ≠ [] := fun hnil => by
        rw [outcomes_cons, hnil, List.append_nil] at h
        rcases run_cases sys item v with ⟨ho, -⟩ | ⟨ho, -⟩ | ⟨f, d, ho, -⟩ <;>
          exact h (by simp [ho])
      rw [outcomes_cons, List.dropLast_append_of_ne_nil hne, List.forall_mem_append,
        not_and_or] at h
      have hhead := h.resolve_right (not_not.mpr htail)
      rcases run_cases sys item v with ⟨ho, -⟩ | ⟨ho, -⟩ | ⟨f, d, ho, hd, hfile, -⟩
      · exact absurd (by simp [ho]) hhead
      · exact absurd (by simp [ho]) hhead
      · have hopen : (item.run sys v).table.file d ≠ none := by
          rw [hfile, Function.update_self]
          simp
        refine ⟨d, hd, by rwa [loop_frame sys items hopen], fun hfd => ?_⟩
        rcases loop_fd sys (v := item.run sys v) items hne with hneg | ⟨d', hfd', hd'⟩
        · omega
        · rw [hfd, Int.natCast_inj] at hfd'
          exact hopen (hfd' ▸ hd')
    · obtain ⟨n, hn, hn', hfd⟩ := ih (v := item.run sys v) htail
      exact ⟨n, free_of_run sys item hn, hn', hfd⟩

/-! ## The command -/

variable {savedStdout savedStdin : Nat} {t : Descriptors (OpenFile φ)}

/-- **The table before a line**: standard input and output are open, `saved_stdin` and
`saved_stdout` refer to the same files, and no end of a pipe of the shell is open. -/
structure Steady (savedStdout savedStdin : Nat) (t : Descriptors (OpenFile φ)) : Prop where
  stdin_open : t.file 0 ≠ none
  stdout_open : t.file 1 ≠ none
  saved_in : t.file savedStdin = t.file 0
  saved_out : t.file savedStdout = t.file 1
  saved_in_ne : savedStdin ≠ 0 ∧ savedStdin ≠ 1
  saved_out_ne : savedStdout ≠ 0 ∧ savedStdout ≠ 1
  no_tube : ∀ n, t.file n ≠ some .tubeRead ∧ t.file n ≠ some .tubeWrite

namespace Steady

theorem saved_in_open (h : Steady savedStdout savedStdin t) : t.file savedStdin ≠ none := by
  rw [h.saved_in]
  exact h.stdin_open

theorem saved_out_open (h : Steady savedStdout savedStdin t) : t.file savedStdout ≠ none := by
  rw [h.saved_out]
  exact h.stdout_open

/-- Only the files matter. -/
theorem congr {t' : Descriptors (OpenFile φ)} (h : Steady savedStdout savedStdin t)
    (he : t'.file = t.file) : Steady savedStdout savedStdin t' := by
  obtain ⟨h1, h2, h3, h4, h5, h6, h7⟩ := h
  exact ⟨by rwa [he], by rwa [he], by rwa [he], by rwa [he], h5, h6, by rwa [he]⟩

end Steady

/-- `restore` changes nothing while the four descriptors have their files. -/
theorem restore_file {T : Descriptors (OpenFile φ)} (hin : T.file savedStdin = T.file 0)
    (hout : T.file savedStdout = T.file 1) : (restore savedStdout savedStdin T).file = T.file := by
  have h0 : (T.dup2 savedStdin 0).file = T.file := Descriptors.dup2_file_eq hin
  unfold restore
  rw [Descriptors.dup2_file_eq (by rw [h0]; exact hout), h0]

/-- What `restore` leaves alone. -/
theorem restore_file_of_ne (T : Descriptors (OpenFile φ)) {n : Nat} (h0 : n ≠ 0) (h1 : n ≠ 1) :
    (restore savedStdout savedStdin T).file n = T.file n := by
  unfold restore
  rw [Descriptors.dup2_file_of_ne _ _ h1, Descriptors.dup2_file_of_ne _ _ h0]

/-- Standard input after `restore`. -/
theorem restore_file_zero {T : Descriptors (OpenFile φ)} (h : T.file savedStdin ≠ none) :
    (restore savedStdout savedStdin T).file 0 = T.file savedStdin := by
  unfold restore
  rw [Descriptors.dup2_file_of_ne _ _ (by omega), Descriptors.dup2_file_self,
    Descriptors.fileOf_natCast]
  obtain ⟨f, hf⟩ := Option.ne_none_iff_exists'.mp h
  rw [hf, Option.some_or]

/-- Standard output after `restore`. -/
theorem restore_file_one {T : Descriptors (OpenFile φ)} (h : T.file savedStdout ≠ none)
    (hne : savedStdout ≠ 0) :
    (restore savedStdout savedStdin T).file 1 = T.file savedStdout := by
  unfold restore
  rw [Descriptors.dup2_file_self, Descriptors.fileOf_natCast, Descriptors.dup2_file_of_ne _ _ hne]
  obtain ⟨f, hf⟩ := Option.ne_none_iff_exists'.mp h
  rw [hf, Option.some_or]

/-- The variables when the pipe has been made. -/
def withTube (v : Vars φ) : Vars φ := { v with table := (v.table.pipe .tubeRead .tubeWrite).2 }

/-- The two descriptors of the pipe. -/
def tubeOf (v : Vars φ) : Nat × Nat := (v.table.pipe .tubeRead .tubeWrite).1

/-- What `pipe` does: its descriptors were free, and refer to its ends. -/
theorem tube_spec (v : Vars φ) : (tubeOf v).1 ≠ (tubeOf v).2 ∧ v.table.file (tubeOf v).1 = none ∧
    v.table.file (tubeOf v).2 = none ∧ ∀ n, (withTube v).table.file n =
      if n = (tubeOf v).2 then some .tubeWrite
      else if n = (tubeOf v).1 then some .tubeRead else v.table.file n := by
  obtain ⟨a, b, hpipe, hab, ha, hb, -⟩ := v.table.pipe_spec .tubeRead .tubeWrite
  have ht : tubeOf v = (a, b) := by rw [tubeOf, hpipe]
  rw [ht]
  refine ⟨Nat.ne_of_lt hab, ha, hb, fun n => ?_⟩
  rw [withTube, hpipe]
  dsimp only
  split_ifs with h1 h2
  · rw [h1, Descriptors.set_file_self]
  · rw [Descriptors.set_file_of_ne _ _ h1, h2, Descriptors.set_file_self]
  · rw [Descriptors.set_file_of_ne _ _ h1, Descriptors.set_file_of_ne _ _ h2]

/-- A descriptor that was open before the pipe is none of its ends. -/
theorem ne_tube {v : Vars φ} {n : Nat} (hn : v.table.file n ≠ none) :
    n ≠ (tubeOf v).1 ∧ n ≠ (tubeOf v).2 := by
  obtain ⟨-, hfree1, hfree2, -⟩ := tube_spec v
  exact ⟨fun he => hn (he ▸ hfree1), fun he => hn (he ▸ hfree2)⟩

theorem withTube_file {v : Vars φ} {n : Nat} (hn : v.table.file n ≠ none) :
    (withTube v).table.file n = v.table.file n := by
  rw [(tube_spec v).2.2.2, if_neg (ne_tube hn).2, if_neg (ne_tube hn).1]

/-- **The parent** closes `fd` and both ends of the pipe. -/
theorem parent_file (v : Vars φ) {n : Nat} (h0 : n ≠ 0) :
    (runParent savedStdin (withTube v) (tubeOf v)).file n =
      if (n : Int) = v.fd then none else v.table.file n := by
  obtain ⟨-, hfree1, hfree2, hfile⟩ := tube_spec v
  have hcat : ∀ T : Descriptors (OpenFile φ),
      (if (withTube v).isCat then T.dup2 savedStdin 0 else T).file n = T.file n := fun T => by
    split_ifs
    · exact T.dup2_file_of_ne _ h0
    · rfl
  unfold runParent
  dsimp only
  by_cases h2 : n = (tubeOf v).2
  · rw [h2, Descriptors.close_file_self, hfree2, ite_self]
  rw [Descriptors.close_file_of_ne _ h2, hcat]
  by_cases h1 : n = (tubeOf v).1
  · rw [h1, Descriptors.close_file_self, hfree1, ite_self]
  rw [Descriptors.close_file_of_ne _ h1, Descriptors.closeFd_file, hfile, if_neg h2, if_neg h1]
  rfl

/-- **Standard output of the child** is what `fd` refers to, if anything. -/
theorem child_stdout (tokens : List Str) (v : Vars φ) (h1 : v.table.file 1 ≠ none) :
    (runChild tokens (withTube v) (tubeOf v)).table.file 1 =
      if v.fd = 1 then none else ((withTube v).table.fileOf v.fd).or (v.table.file 1) := by
  obtain ⟨hne1, hne2⟩ := ne_tube h1
  have hout := withTube_file h1
  have htable : (runChild tokens (withTube v) (tubeOf v)).table.file 1 =
      (if (withTube v).fd ≠ -1 then
        ((withTube v).table.dup2 (withTube v).fd 1).closeFd (withTube v).fd
      else (withTube v).table).file 1 := by
    unfold runChild
    dsimp only
    split_ifs <;>
      simp only [Descriptors.close_file_of_ne _ hne1, Descriptors.close_file_of_ne _ hne2,
        Descriptors.dup2_file_of_ne _ _ (show (1 : Nat) ≠ 0 by omega)]
  rw [htable, show (withTube v).fd = v.fd from rfl]
  split_ifs with h h'
  · rw [Descriptors.closeFd_file, if_pos (by omega)]
  · rw [Descriptors.closeFd_file, if_neg (by omega), Descriptors.dup2_file_self, hout]
  · omega
  · rw [not_not] at h
    rw [h, hout]
    rfl

/-! ## One line -/

/-- A line, with the outcomes of the calls and the value of `fd` at its start. -/
structure Line (φ : Type) where
  sys : Outcomes φ
  garbage : Int
  tokens : List Str

namespace Line

/-- The outcomes of the `'>'` operators of the line. -/
def outputs (line : Line φ) : List (Option φ) := outcomes line.sys (items 0 line.tokens)

/-- The function that runs, if the line is no program: `none` when a `'<'` file does not open. -/
def builtin (line : Line φ) : Option CmdFun :=
  if inputsOpen line.sys (items 0 line.tokens) then lookup (tokensGetToken line.tokens 0) else none

/-- The line runs a program. -/
def isProgram (line : Line φ) : Bool :=
  inputsOpen line.sys (items 0 line.tokens) && (lookup (tokensGetToken line.tokens 0)).isNone

/-- The body of the loop for the line. -/
def body (savedStdout savedStdin : Nat) (line : Line φ) (t : Descriptors (OpenFile φ)) :
    BodyResult φ :=
  lineBody line.sys savedStdout savedStdin line.garbage line.tokens t

/-- The standard output a child of the line should have: the file of the last `'>'` that opened,
otherwise that of the shell. -/
def stdout (line : Line φ) (t : Descriptors (OpenFile φ)) : Option (OpenFile φ) :=
  match line.outputs.reduceOption.getLast? with
  | some f => some (.other f)
  | none => t.file 1

end Line

/-- The shell has the same descriptors open, and the same files behind 0 and 1. -/
structure AsFound (t t' : Descriptors (OpenFile φ)) : Prop where
  same_open : ∀ n, t'.file n = none ↔ t.file n = none
  stdin : t'.file 0 = t.file 0
  stdout : t'.file 1 = t.file 1

/-- **The line leaves the descriptors as it found them**, and its child, if any, has the right
standard output. -/
def LeavesAsFound (savedStdout savedStdin : Nat) (line : Line φ) (t : Descriptors (OpenFile φ)) :
    Prop :=
  match line.body savedStdout savedStdin t with
  | .exited => True
  | .done t' child => AsFound t t' ∧ ∀ c ∈ child, c.table.file 1 = line.stdout t

/-- **The condition.** Without a program no `'>'` opens. For a program with a `'>'`, none opens but
the last. For a program without one, `fd` happens to be no open descriptor and none of the two that
`pipe` will take, or it is 0 and standard input and output are one file. -/
structure Meets (line : Line φ) (t : Descriptors (OpenFile φ)) : Prop where
  no_program : line.isProgram = false → line.builtin ≠ some .cmdExit →
    ∀ o ∈ line.outputs, o = none
  last_output : line.isProgram = true → line.outputs ≠ [] →
    ∀ o ∈ line.outputs.dropLast, o = none
  no_output : line.isProgram = true → line.outputs = [] →
    (t.fileOf line.garbage = none ∧ line.garbage ≠ (t.pipe .tubeRead .tubeWrite).1.1 ∧
      line.garbage ≠ (t.pipe .tubeRead .tubeWrite).1.2) ∨
    (line.garbage = 0 ∧ t.file 0 = t.file 1)

/-- The variables at the command of a line. -/
def Line.vars (savedStdout savedStdin : Nat) (line : Line φ) (t : Descriptors (OpenFile φ)) :
    Vars φ :=
  redirected line.sys savedStdout savedStdin line.garbage line.tokens t

/-- The loop over the tokens of a line. -/
def Line.loop (line : Line φ) (t : Descriptors (OpenFile φ)) : Vars φ :=
  runItems line.sys (items 0 line.tokens) (startVars line.garbage line.tokens t)

variable {line : Line φ}

theorem Line.loop_file (line : Line φ) {n : Nat} (hn : t.file n ≠ none) :
    (line.loop t).table.file n = t.file n := loop_frame line.sys (items 0 line.tokens) hn

/-- The command finds the table of the loop behind `restore`, and the rest as the loop left it. -/
theorem vars_loop (savedStdout savedStdin : Nat) (line : Line φ) (t : Descriptors (OpenFile φ)) :
    (line.vars savedStdout savedStdin t).table =
      restore savedStdout savedStdin (line.loop t).table ∧
    (line.vars savedStdout savedStdin t).fd = (line.loop t).fd ∧
    (line.vars savedStdout savedStdin t).valid = inputsOpen line.sys (items 0 line.tokens) := by
  have hloop : tokenLoop line.sys 0 line.tokens (startVars line.garbage line.tokens t) =
      line.loop t := tokenLoop_eq_foldl ..
  unfold Line.vars redirected
  rw [hloop]
  exact ⟨rfl, rfl, runItems_valid line.sys (items 0 line.tokens) _⟩

/-- What the loop leaves behind in the table and in `fd` is what the command finds. -/
theorem vars_spec (line : Line φ) (h : Steady savedStdout savedStdin t) :
    (line.vars savedStdout savedStdin t).table.file = (line.loop t).table.file ∧
    (line.vars savedStdout savedStdin t).fd = (line.loop t).fd ∧
    (line.vars savedStdout savedStdin t).valid = inputsOpen line.sys (items 0 line.tokens) := by
  refine ⟨?_, (vars_loop savedStdout savedStdin line t).2⟩
  rw [(vars_loop savedStdout savedStdin line t).1]
  refine restore_file ?_ ?_
  · rw [line.loop_file h.saved_in_open, line.loop_file h.stdin_open, h.saved_in]
  · rw [line.loop_file h.saved_out_open, line.loop_file h.stdout_open, h.saved_out]

/-- The files of the shell after a program, if `fd` is neither of the saved descriptors. -/
theorem program_file (h : Steady savedStdout savedStdin t) {v : Vars φ}
    (hkeep : ∀ n, t.file n ≠ none → v.table.file n = t.file n)
    (hin : v.fd ≠ savedStdin) (hout : v.fd ≠ savedStdout) (n : Nat) :
    (restore savedStdout savedStdin (runParent savedStdin (withTube v) (tubeOf v))).file n =
      if n = 0 ∨ n = 1 then t.file n else if (n : Int) = v.fd then none else v.table.file n := by
  have hsin : (runParent savedStdin (withTube v) (tubeOf v)).file savedStdin =
      t.file savedStdin := by
    rw [parent_file v h.saved_in_ne.1, if_neg (Ne.symm hin), hkeep _ h.saved_in_open]
  have hsout : (runParent savedStdin (withTube v) (tubeOf v)).file savedStdout =
      t.file savedStdout := by
    rw [parent_file v h.saved_out_ne.1, if_neg (Ne.symm hout), hkeep _ h.saved_out_open]
  split_ifs with h01 hfd
  · rcases h01 with rfl | rfl
    · rw [restore_file_zero (by rw [hsin]; exact h.saved_in_open), hsin, h.saved_in]
    · rw [restore_file_one (by rw [hsout]; exact h.saved_out_open) h.saved_out_ne.1, hsout,
        h.saved_out]
  · rw [restore_file_of_ne _ (by omega) (by omega), parent_file v (by omega), if_pos hfd]
  · rw [restore_file_of_ne _ (by omega) (by omega), parent_file v (by omega), if_neg hfd]

/-- A file the shell closes for a program, because it is in `fd`. -/
theorem program_closes {v : Vars φ} {n : Nat} (h0 : n ≠ 0) (h1 : n ≠ 1) (hfd : v.fd = n) :
    (restore savedStdout savedStdin (runParent savedStdin (withTube v) (tubeOf v))).file n =
      none := by
  rw [restore_file_of_ne _ h0 h1, parent_file v h0, if_pos hfd.symm]

/-- The body of a line that runs a program. -/
theorem body_program (savedStdout savedStdin : Nat) (t : Descriptors (OpenFile φ))
    (hp : line.isProgram = true) : line.body savedStdout savedStdin t = .done
      (restore savedStdout savedStdin (runParent savedStdin
        (withTube (line.vars savedStdout savedStdin t))
        (tubeOf (line.vars savedStdout savedStdin t))))
      (some (runChild line.tokens (withTube (line.vars savedStdout savedStdin t))
        (tubeOf (line.vars savedStdout savedStdin t)))) := by
  obtain ⟨hinputs, hlookup⟩ := Bool.and_eq_true_iff.mp hp
  have hvalid := (vars_loop savedStdout savedStdin line t).2.2.trans hinputs
  unfold Line.vars at hvalid
  unfold Line.body lineBody
  dsimp only
  rw [if_pos hvalid, Option.isNone_iff_eq_none.mp hlookup]
  rfl

/-- The body of a line that runs no program and does not exit. -/
theorem body_no_program (h : Steady savedStdout savedStdin t) (hp : line.isProgram = false)
    (he : line.builtin ≠ some .cmdExit) :
    ∃ t', line.body savedStdout savedStdin t = .done t' none ∧
      t'.file = (line.loop t).table.file := by
  obtain ⟨hfile, -, hvalid⟩ := vars_spec line h
  refine ⟨restore savedStdout savedStdin (line.vars savedStdout savedStdin t).table, ?_, ?_⟩
  · unfold Line.vars at hvalid
    unfold Line.body lineBody
    unfold Line.isProgram at hp
    unfold Line.builtin at he
    dsimp only
    rw [hvalid]
    split_ifs with hinputs
    · rw [hinputs, Bool.true_and] at hp
      rw [if_pos hinputs] at he
      cases hl : lookup (tokensGetToken line.tokens 0) with
      | none =>
        rw [hl] at hp
        exact absurd hp (by simp)
      | some f =>
        rw [hl] at he
        cases f with
        | cmdExit => exact absurd rfl he
        | cmdHelp => rfl
        | cmdPwd => rfl
        | cmdCd => rfl
    · rfl
  · rw [restore_file, hfile]
    · rw [hfile, line.loop_file h.saved_in_open, line.loop_file h.stdin_open, h.saved_in]
    · rw [hfile, line.loop_file h.saved_out_open, line.loop_file h.stdout_open, h.saved_out]

theorem body_exit (h : Steady savedStdout savedStdin t) (he : line.builtin = some .cmdExit) :
    line.body savedStdout savedStdin t = .exited := by
  obtain ⟨-, -, hvalid⟩ := vars_spec line h
  unfold Line.builtin at he
  unfold Line.vars at hvalid
  unfold Line.body lineBody
  dsimp only
  split_ifs at he with hinputs
  rw [hvalid, if_pos hinputs, he]

/-- Without an open `'>'` the child should have the standard output of the shell. -/
theorem stdout_of_closed (h : ∀ o ∈ line.outputs, o = none) : line.stdout t = t.file 1 := by
  have hnil : line.outputs.reduceOption = [] := by
    rw [List.eq_nil_iff_forall_not_mem]
    intro f hf
    exact absurd (h _ (List.reduceOption_mem_iff.mp hf)) (by simp)
  rw [Line.stdout, hnil, List.getLast?_nil]

/-- **A program whose loop leaves `-1` or a descriptor of its own in `fd`.** -/
theorem program_of_outputs (h : Steady savedStdout savedStdin t)
    (hp : line.isProgram = true) (hne : line.outputs ≠ [])
    (hlast : ∀ o ∈ line.outputs.dropLast, o = none) :
    ∃ t' c, line.body savedStdout savedStdin t = .done t' (some c) ∧ t'.file = t.file ∧
      c.table.file 1 = line.stdout t := by
  obtain ⟨hfile, hfd, -⟩ := vars_spec line h
  have hbody := body_program savedStdout savedStdin t hp
  generalize line.vars savedStdout savedStdin t = v at hfile hfd hbody
  have hkeep : ∀ n, t.file n ≠ none → v.table.file n = t.file n := fun n hn => by
    rw [hfile]
    exact line.loop_file hn
  refine ⟨_, _, hbody, ?_⟩
  rw [child_stdout _ _ (by rw [hkeep 1 h.stdout_open]; exact h.stdout_open)]
  rcases loop_last line.sys (items 0 line.tokens) (v := startVars line.garbage line.tokens t) hlast
    with hnone | ⟨f, d, hred, hd, hupdate, hdfd⟩
  · obtain ⟨hsame, hneg⟩ :=
      loop_closed line.sys (items 0 line.tokens) (v := startVars line.garbage line.tokens t) hnone
    have hsame : v.table.file = t.file := hfile.trans hsame
    have hneg : v.fd = -1 := (hfd.trans hneg).trans (if_neg hne)
    refine ⟨funext fun n => ?_, ?_⟩
    · rw [program_file h hkeep (by omega) (by omega), hsame]
      split_ifs with h01 hn
      · rfl
      · omega
      · rfl
    · rw [stdout_of_closed hnone, hneg, if_neg (by omega), hsame]
      rfl
  · have hsame : v.table.file = Function.update t.file d (some (.other f)) := hfile.trans hupdate
    have hdfd : v.fd = d := hfd.trans hdfd
    have hfree : t.file d = none := hd
    have hned : ∀ {n : Nat}, t.file n ≠ none → v.fd ≠ n := fun hn hv => by
      rw [hdfd, Int.natCast_inj] at hv
      exact hn (hv ▸ hfree)
    refine ⟨funext fun n => ?_, ?_⟩
    · rw [program_file h hkeep (hned h.saved_in_open) (hned h.saved_out_open), hdfd, hsame]
      split_ifs with h01 hn
      · rfl
      · rw [Int.natCast_inj.mp hn, hfree]
      · exact Function.update_of_ne (by omega) _ _
    · have hopen : v.table.file d ≠ none := by
        rw [hsame, Function.update_self]
        simp
      have hne1 : v.fd ≠ 1 := hned h.stdout_open
      rw [if_neg hne1, hdfd, Descriptors.fileOf_natCast, withTube_file hopen, hsame,
        Function.update_self, Option.some_or, Line.stdout]
      rw [show line.outputs.reduceOption = [f] from hred]
      rfl

/-- What the command of a program without `'>'` finds: the table and `fd` as they were. -/
theorem vars_of_no_output (h : Steady savedStdout savedStdin t) (hnil : line.outputs = []) :
    (line.vars savedStdout savedStdin t).table.file = t.file ∧
      (line.vars savedStdout savedStdin t).fd = line.garbage := by
  obtain ⟨hfile, hfd, -⟩ := vars_spec line h
  obtain ⟨hsame, hg⟩ := loop_closed line.sys (items 0 line.tokens)
    (v := startVars line.garbage line.tokens t) (by
      rw [show outcomes line.sys (items 0 line.tokens) = [] from hnil]
      simp)
  exact ⟨hfile.trans hsame, (hfd.trans hg).trans (if_pos hnil)⟩

/-- **A program without `'>'`**, when `fd` holds a value that does no harm. -/
theorem program_of_no_output (h : Steady savedStdout savedStdin t)
    (hp : line.isProgram = true) (hnil : line.outputs = [])
    (hg : (t.fileOf line.garbage = none ∧ line.garbage ≠ (t.pipe .tubeRead .tubeWrite).1.1 ∧
        line.garbage ≠ (t.pipe .tubeRead .tubeWrite).1.2) ∨
      (line.garbage = 0 ∧ t.file 0 = t.file 1)) :
    ∃ t' c, line.body savedStdout savedStdin t = .done t' (some c) ∧ t'.file = t.file ∧
      c.table.file 1 = line.stdout t := by
  obtain ⟨hsame, hfd⟩ := vars_of_no_output h hnil
  have hbody := body_program savedStdout savedStdin t hp
  generalize line.vars savedStdout savedStdin t = v at hsame hfd hbody
  obtain ⟨-, -, -, htube⟩ := tube_spec v
  have htubeOf : tubeOf v = (t.pipe .tubeRead .tubeWrite).1 := Descriptors.pipe_congr hsame _ _
  rw [← htubeOf] at hg
  -- a descriptor in `fd` other than 0 is not open
  have hclosed : ∀ {n : Nat}, n ≠ 0 → v.fd = n → t.file n = none := fun hn0 hn => by
    rcases hg with ⟨hnone, -⟩ | ⟨hzero, -⟩
    · rwa [← hfd, hn, Descriptors.fileOf_natCast] at hnone
    · omega
  have hne1 : v.fd ≠ 1 := fun he => h.stdout_open (hclosed (by omega) he)
  refine ⟨_, _, hbody, funext fun n => ?_, ?_⟩
  · rw [program_file h (fun n _ => by rw [hsame])
      (fun he => h.saved_in_open (hclosed h.saved_in_ne.1 he))
      (fun he => h.saved_out_open (hclosed h.saved_out_ne.1 he)), hsame]
    split_ifs with h01 hn
    · rfl
    · exact (hclosed (by omega) hn.symm).symm
    · rfl
  · rw [child_stdout _ _ (by rw [hsame]; exact h.stdout_open), if_neg hne1, hsame,
      stdout_of_closed (by simp [hnil])]
    rcases hg with ⟨hnone, hg1, hg2⟩ | ⟨hzero, h01⟩
    · have : (withTube v).table.fileOf v.fd = none := by
        rw [← hfd] at hnone hg1 hg2
        unfold Descriptors.fileOf at hnone ⊢
        split_ifs at hnone ⊢ with hneg
        · rfl
        · rw [htube, if_neg (by omega), if_neg (by omega), hsame, hnone]
      rw [this, Option.none_or]
    · have hopen : v.table.file 0 ≠ none := by
        rw [hsame]
        exact h.stdin_open
      have : (withTube v).table.fileOf v.fd = t.file 1 := by
        rw [hfd, hzero, show (0 : Int) = ((0 : Nat) : Int) from rfl, Descriptors.fileOf_natCast,
          withTube_file hopen, hsame, h01]
      rw [this, Option.or_self]

/-- **A line that meets the condition changes no descriptor**, and its child has the right standard
output. -/
theorem body_of_meets (h : Steady savedStdout savedStdin t) (hm : Meets line t) :
    line.body savedStdout savedStdin t = .exited ∨
      ∃ t' child, line.body savedStdout savedStdin t = .done t' child ∧ t'.file = t.file ∧
        ∀ c ∈ child, c.table.file 1 = line.stdout t := by
  cases hp : line.isProgram with
  | true =>
    have hprogram : ∃ t' c, line.body savedStdout savedStdin t = .done t' (some c) ∧
        t'.file = t.file ∧ c.table.file 1 = line.stdout t := by
      by_cases hnil : line.outputs = []
      · exact program_of_no_output h hp hnil (hm.no_output hp hnil)
      · exact program_of_outputs h hp hnil (hm.last_output hp hnil)
    obtain ⟨t', c, hbody, hfile, hout⟩ := hprogram
    exact Or.inr ⟨t', some c, hbody, hfile, fun c' hc => Option.some.inj hc ▸ hout⟩
  | false =>
    by_cases he : line.builtin = some .cmdExit
    · exact Or.inl (body_exit h he)
    · obtain ⟨t', hbody, hfile⟩ := body_no_program h hp he
      obtain ⟨hsame, -⟩ := loop_closed line.sys (items 0 line.tokens)
        (v := startVars line.garbage line.tokens t) (hm.no_program hp he)
      exact Or.inr ⟨t', none, hbody, hfile.trans hsame, fun c hc => absurd hc (by simp)⟩

theorem leavesAsFound_of_meets (h : Steady savedStdout savedStdin t) (hm : Meets line t) :
    LeavesAsFound savedStdout savedStdin line t := by
  unfold LeavesAsFound
  rcases body_of_meets h hm with hbody | ⟨t', child, hbody, hfile, hout⟩
  · rw [hbody]
    trivial
  · rw [hbody]
    exact ⟨⟨fun n => by rw [hfile], by rw [hfile], by rw [hfile]⟩, hout⟩

/-- A program with a `'>'` that opens before the last leaks its descriptor. -/
theorem last_output_of_leavesAsFound (h : Steady savedStdout savedStdin t)
    (hp : line.isProgram = true) (hl : LeavesAsFound savedStdout savedStdin line t) :
    ∀ o ∈ line.outputs.dropLast, o = none := by
  by_contra hleak
  obtain ⟨n, hfree, hopen, hne⟩ := loop_leaks line.sys (items 0 line.tokens)
    (v := startVars line.garbage line.tokens t) hleak
  obtain ⟨hfile, hfd, -⟩ := vars_spec line h
  have hfree : t.file n = none := hfree
  unfold LeavesAsFound at hl
  rw [body_program savedStdout savedStdin t hp] at hl
  have hsame := (hl.1.same_open n).mpr hfree
  rw [restore_file_of_ne _ (fun hn => h.stdin_open (hn ▸ hfree))
    (fun hn => h.stdout_open (hn ▸ hfree)), parent_file _ (fun hn => h.stdin_open (hn ▸ hfree)),
    if_neg (fun he => hne (hfd ▸ he.symm)), hfile] at hsame
  exact hopen hsame

/-- A program without `'>'` goes wrong when `fd` is a descriptor that is open. -/
theorem no_output_of_leavesAsFound (h : Steady savedStdout savedStdin t)
    (hp : line.isProgram = true) (hnil : line.outputs = [])
    (hl : LeavesAsFound savedStdout savedStdin line t) :
    (t.fileOf line.garbage = none ∧ line.garbage ≠ (t.pipe .tubeRead .tubeWrite).1.1 ∧
        line.garbage ≠ (t.pipe .tubeRead .tubeWrite).1.2) ∨
      (line.garbage = 0 ∧ t.file 0 = t.file 1) := by
  obtain ⟨hsame, hfd⟩ := vars_of_no_output h hnil
  unfold LeavesAsFound at hl
  rw [body_program savedStdout savedStdin t hp] at hl
  generalize line.vars savedStdout savedStdin t = v at hsame hfd hl
  obtain ⟨hfound, hout⟩ := hl
  have hout := hout _ rfl
  obtain ⟨-, -, -, htube⟩ := tube_spec v
  have htubeOf : tubeOf v = (t.pipe .tubeRead .tubeWrite).1 := Descriptors.pipe_congr hsame _ _
  rw [child_stdout _ _ (by rw [hsame]; exact h.stdout_open), hsame,
    stdout_of_closed (by simp [hnil])] at hout
  rw [← htubeOf, ← hfd]
  have hne1 : v.fd ≠ 1 := fun he => by
    rw [if_pos he] at hout
    exact h.stdout_open hout.symm
  rw [if_neg hne1] at hout
  -- the child has what `fd` refers to
  have hchild : ∀ {n : Nat} {f : OpenFile φ}, v.fd = n → (withTube v).table.file n = some f →
      t.file 1 = some f := fun hn hf => by
    rw [hn, Descriptors.fileOf_natCast, hf, Option.some_or] at hout
    exact hout.symm
  by_cases hzero : v.fd = 0
  · have hopen : v.table.file 0 ≠ none := by
      rw [hsame]
      exact h.stdin_open
    obtain ⟨f, hf⟩ := Option.ne_none_iff_exists'.mp h.stdin_open
    refine Or.inr ⟨hzero, ?_⟩
    rw [hf, hchild (n := 0) hzero (by rw [withTube_file hopen, hsame, hf])]
  · refine Or.inl ⟨?_, fun he => ?_, fun he => ?_⟩
    · by_contra hopen
      obtain ⟨n, hn, hopen⟩ := Descriptors.exists_of_fileOf_ne hopen
      exact hopen ((hfound.same_open n).mp (program_closes (by omega) (by omega) hn))
    · refine (h.no_tube 1).1 (hchild he ?_)
      rw [htube, if_neg (fun he' => ?_), if_pos rfl]
      exact (tube_spec v).1 he'
    · refine (h.no_tube 1).2 (hchild he ?_)
      rw [htube, if_pos rfl]

/-- **A line leaves the descriptors as it found them iff it meets the condition.** -/
theorem leavesAsFound_iff (h : Steady savedStdout savedStdin t) :
    LeavesAsFound savedStdout savedStdin line t ↔ Meets line t := by
  refine ⟨fun hl => ⟨fun hp he => ?_, fun hp _ => last_output_of_leavesAsFound h hp hl,
    fun hp hnil => no_output_of_leavesAsFound h hp hnil hl⟩, leavesAsFound_of_meets h⟩
  by_contra hopens
  obtain ⟨n, hfree, hopen⟩ := loop_opens line.sys (items 0 line.tokens)
    (v := startVars line.garbage line.tokens t) hopens
  obtain ⟨t', hbody, hfile⟩ := body_no_program h hp he
  unfold LeavesAsFound at hl
  rw [hbody] at hl
  have hsame := (hl.1.same_open n).mpr hfree
  rw [hfile] at hsame
  exact hopen hsame

/-! ## A run of the shell -/

/-- The lines that the shell comes to, each with the table before it. -/
def trace (savedStdout savedStdin : Nat) :
    Descriptors (OpenFile φ) → List (Line φ) → List (Line φ × Descriptors (OpenFile φ))
  | _, [] => []
  | t, line :: lines => (line, t) :: match line.body savedStdout savedStdin t with
    | .exited => []
    | .done t' _ => trace savedStdout savedStdin t' lines

/-- The descriptors when `main` comes to its loop: it was started with standard input open, and both
calls of `dup` have succeeded. -/
structure Started (t₀ : Descriptors (OpenFile φ)) (savedStdout savedStdin : Nat)
    (t : Descriptors (OpenFile φ)) : Prop where
  no_tube : ∀ n, t₀.file n ≠ some .tubeRead ∧ t₀.file n ≠ some .tubeWrite
  stdin_open : t₀.file 0 ≠ none
  saved : ∃ t₁, t₀.dup 1 = some (savedStdout, t₁) ∧ t₁.dup 0 = some (savedStdin, t)

theorem Started.steady {t₀ : Descriptors (OpenFile φ)} (h : Started t₀ savedStdout savedStdin t) :
    Steady savedStdout savedStdin t := by
  obtain ⟨t₁, hout, hin⟩ := h.saved
  obtain ⟨h1open, hofree, ho, hokeep⟩ := Descriptors.dup_spec hout
  obtain ⟨h0open, hifree, hi, hikeep⟩ := Descriptors.dup_spec hin
  have ho0 : savedStdout ≠ 0 := fun he => h.stdin_open (he ▸ hofree)
  have ho1 : savedStdout ≠ 1 := fun he => h1open (he ▸ hofree)
  have hi0 : savedStdin ≠ 0 := fun he => h0open (he ▸ hifree)
  have hi1 : savedStdin ≠ 1 := fun he => by
    rw [he, hokeep 1 (Ne.symm ho1)] at hifree
    exact h1open hifree
  have hio : savedStdin ≠ savedStdout := fun he => by
    rw [he, ho] at hifree
    exact h1open hifree
  have h0 : t.file 0 = t₁.file 0 := hikeep 0 (Ne.symm hi0)
  have h1 : t.file 1 = t₀.file 1 := (hikeep 1 (Ne.symm hi1)).trans (hokeep 1 (Ne.symm ho1))
  refine ⟨by rwa [h0], by rwa [h1], by rw [hi, h0], ?_, ⟨hi0, hi1⟩, ⟨ho0, ho1⟩, fun n => ?_⟩
  · rw [hikeep _ (Ne.symm hio), ho, h1]
  · -- every file of `t` is one of `t₀`
    have hold : ∃ m, t.file n = t₀.file m := by
      have hold₁ : ∀ k, ∃ m, t₁.file k = t₀.file m := fun k => by
        by_cases hk : k = savedStdout
        · exact ⟨1, hk ▸ ho⟩
        · exact ⟨k, hokeep k hk⟩
      by_cases hn : n = savedStdin
      · obtain ⟨m, hm⟩ := hold₁ 0
        exact ⟨m, by rw [hn, hi, hm]⟩
      · obtain ⟨m, hm⟩ := hold₁ n
        exact ⟨m, by rw [hikeep n hn, hm]⟩
    obtain ⟨m, hm⟩ := hold
    rw [hm]
    exact h.no_tube m

/-- The lines of a run from a steady table: while all of them so far have met the condition, the
table is the one it started with. -/
theorem trace_iff (lines : List (Line φ)) : ∀ t, Steady savedStdout savedStdin t →
    ((∀ p ∈ trace savedStdout savedStdin t lines,
        LeavesAsFound savedStdout savedStdin p.1 p.2) ↔
      ∀ p ∈ trace savedStdout savedStdin t lines, Meets p.1 p.2) := by
  induction lines with
  | nil => exact fun t _ => by simp [trace]
  | cons line lines ih =>
    intro t h
    rw [trace, List.forall_mem_cons, List.forall_mem_cons, leavesAsFound_iff h]
    refine and_congr_right fun hm => ?_
    rcases body_of_meets h hm with hbody | ⟨t', child, hbody, hfile, -⟩
    · simp [hbody]
    · rw [hbody]
      exact ih t' (h.congr hfile)

/-- **Every line of a run of the shell leaves the descriptors as it found them iff every line meets
the condition**, whatever `fd` holds at its start and whatever opens. -/
theorem run_leavesAsFound_iff {t₀ : Descriptors (OpenFile φ)}
    (h : Started t₀ savedStdout savedStdin t) (lines : List (Line φ)) :
    (∀ p ∈ trace savedStdout savedStdin t lines,
        LeavesAsFound savedStdout savedStdin p.1 p.2) ↔
      ∀ p ∈ trace savedStdout savedStdin t lines, Meets p.1 p.2 :=
  trace_iff lines t h.steady

/-- The table of a shell that is started with three open files. -/
def threeFiles : Descriptors (OpenFile Unit) := .ofList (List.replicate 3 (.other ()))

theorem threeFiles_started : ∃ t, Started threeFiles 3 4 t := by
  have hother : ∀ n f, threeFiles.file n = some f → f = .other () := fun n f hf =>
    List.eq_of_mem_replicate (List.mem_of_getElem? hf)
  refine ⟨_, fun n => ⟨fun h => ?_, fun h => ?_⟩, by decide, _, rfl, rfl⟩
  · exact absurd (hother n _ h) (by simp)
  · exact absurd (hother n _ h) (by simp)

/-- The lines `cat > out` and `ls`. -/
theorem run_leavesAsFound_iff_two : ∃ t, Started threeFiles 3 4 t ∧
    ((∀ p ∈ trace 3 4 t [⟨⟨fun _ _ => some (), fun _ _ => none⟩, 7,
          [bytes "cat", bytes ">", bytes "out"]⟩,
        ⟨⟨fun _ _ => none, fun _ _ => none⟩, 7, [bytes "ls"]⟩], LeavesAsFound 3 4 p.1 p.2) ↔
      ∀ p ∈ trace 3 4 t [⟨⟨fun _ _ => some (), fun _ _ => none⟩, 7,
          [bytes "cat", bytes ">", bytes "out"]⟩,
        ⟨⟨fun _ _ => none, fun _ _ => none⟩, 7, [bytes "ls"]⟩], Meets p.1 p.2) := by
  obtain ⟨t, h⟩ := threeFiles_started
  exact ⟨t, h, run_leavesAsFound_iff h _⟩

/-- The line `pwd > out`: `pwd` is a built-in function, so the shell keeps `out` open. -/
theorem pwd_leaks : ¬ ∀ (line : Line Unit) (t₀ t : Descriptors (OpenFile Unit))
    (savedStdout savedStdin : Nat), Started t₀ savedStdout savedStdin t →
      LeavesAsFound savedStdout savedStdin line t := by
  intro hclaim
  obtain ⟨t, h⟩ := threeFiles_started
  have hl := hclaim ⟨⟨fun _ _ => some (), fun _ _ => none⟩, 7,
    [bytes "pwd", bytes ">", bytes "out"]⟩ threeFiles t 3 4 h
  have hm := ((leavesAsFound_iff h.steady).mp hl).no_program (by decide) (by decide)
  exact absurd (hm (some ()) (by decide)) (by simp)

end SystemProgramming.Shell
