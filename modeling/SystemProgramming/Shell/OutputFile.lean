import SystemProgramming.Lib.FileWrite
import SystemProgramming.Shell.Arguments
import SystemProgramming.Shell.Redirection

/-!
# The file behind `'>'`

What a program leaves in the file that a line redirects its standard output to. The child shares the
open file with the shell, and only the child writes to it: for the line whose only word is `cat`, a
message of its own first, and then what the program writes.

* `child_writes_file`: standard output of the child is the file behind the only `'>'`.
* `content_iff`: the file holds exactly the output of the program if the word is not a lone `cat`
  and the output covers what was in the file before.
-/

namespace SystemProgramming.Shell

open Lib

variable {φ : Type}

/-- What a child writes to its standard output, call by call. `pending` is what the shell has put
into the buffer of `stdout` and not written, `out` what the program writes. -/
def childWrites (isCat : Bool) (pending : Str) (out : List Str) : List Str :=
  if isCat then (pending ++ bytes "cat from stdin\n") :: out else out

/-- The files after a child has written to its standard output. -/
def writeStdout [DecidableEq φ] (child : Child φ) (chunks : List Str)
    (files : φ → FileState UInt8) : φ → FileState UInt8 :=
  match child.table.file 1 with
  | some (.other f) => Function.update files f (chunks.foldl FileState.write (files f))
  | _ => files

/-- The files after a line and its child. -/
def Line.files [DecidableEq φ] (savedStdout savedStdin : Nat) (line : Line φ)
    (t : Descriptors (OpenFile φ)) (pending : Str) (out : List Str)
    (files : φ → FileState UInt8) : φ → FileState UInt8 :=
  match line.body savedStdout savedStdin t with
  | .done _ (some child) =>
    writeStdout child (childWrites (line.vars savedStdout savedStdin t).isCat pending out) files
  | _ => files

variable {savedStdout savedStdin : Nat} {t : Descriptors (OpenFile φ)} {line : Line φ} {f : φ}

/-- An open standard output stays open in `restore`. -/
theorem restore_stdout_open {T : Descriptors (OpenFile φ)} (h : T.file 1 ≠ none) :
    (restore savedStdout savedStdin T).file 1 ≠ none := by
  unfold restore
  rw [Descriptors.dup2_file_self, Descriptors.dup2_file_of_ne _ _ (by omega)]
  obtain ⟨g, hg⟩ := Option.ne_none_iff_exists'.mp h
  rw [hg]
  cases Descriptors.fileOf _ _ <;> simp

/-- **Standard output of the child** is the file behind the only `'>'`. -/
theorem child_writes_file (savedStdout savedStdin : Nat) (h0 : t.file 0 ≠ none)
    (h1 : t.file 1 ≠ none) (hp : line.isProgram = true) (hout : line.outputs = [some f]) :
    ∃ t' child, line.body savedStdout savedStdin t = .done t' (some child) ∧
      child.table.file 1 = some (.other f) := by
  refine ⟨_, _, body_program savedStdout savedStdin t hp, ?_⟩
  obtain ⟨htable, hfd, -⟩ := vars_loop savedStdout savedStdin line t
  have hout' : outcomes line.sys (items 0 line.tokens) = [some f] := hout
  -- the loop has opened one descriptor, which is in `fd`
  obtain ⟨d, hfree, hfile, hd⟩ : ∃ d, t.file d = none ∧
      (line.loop t).table.file = Function.update t.file d (some (.other f)) ∧
      (line.loop t).fd = d := by
    rcases loop_last line.sys (items 0 line.tokens) (v := startVars line.garbage line.tokens t)
      (by simp [hout']) with hnone | ⟨g, d, hg, hfree, hfile, hd⟩
    · exact absurd (hnone (some f) (by simp [hout'])) (by simp)
    · rw [hout'] at hg
      obtain rfl : f = g := by simpa [List.reduceOption] using hg
      exact ⟨d, hfree, hfile, hd⟩
  have hd0 : d ≠ 0 := fun he => h0 (he ▸ hfree)
  have hd1 : d ≠ 1 := fun he => h1 (he ▸ hfree)
  have hopen : (line.vars savedStdout savedStdin t).table.file d = some (.other f) := by
    rw [htable, restore_file_of_ne _ hd0 hd1, hfile, Function.update_self]
  have hstdout : (line.vars savedStdout savedStdin t).table.file 1 ≠ none := by
    rw [htable]
    refine restore_stdout_open ?_
    rwa [line.loop_file h1]
  have hfd1 : (line.vars savedStdout savedStdin t).fd ≠ 1 := by
    rw [hfd, hd]
    omega
  rw [child_stdout _ _ hstdout, if_neg hfd1, hfd, hd, Descriptors.fileOf_natCast,
    withTube_file (by simp [hopen]), hopen, Option.some_or]

/-- **The file after the line.** -/
theorem content_files [DecidableEq φ] (savedStdout savedStdin : Nat) (h0 : t.file 0 ≠ none)
    (h1 : t.file 1 ≠ none) (hp : line.isProgram = true) (hout : line.outputs = [some f])
    {files : φ → FileState UInt8} {old : Option Str} (hold : files f = .opened old)
    (pending : Str) (out : List Str) :
    (line.files savedStdout savedStdin t pending out files f).content =
      ((childWrites (line.vars savedStdout savedStdin t).isCat pending out).foldl FileState.write
        (.opened old)).content := by
  obtain ⟨t', child, hbody, hstdout⟩ := child_writes_file savedStdout savedStdin h0 h1 hp hout
  simp only [Line.files, hbody, writeStdout, hstdout, Function.update_self, hold]

/-- **The file holds exactly the output of the program** if and only if the command is no lone
`cat`, and the file has not been longer than the output. -/
theorem content_iff [DecidableEq φ] (savedStdout savedStdin : Nat) (line : Line φ)
    (t : Descriptors (OpenFile φ)) (f : φ) (files : φ → FileState UInt8) (old : Option Str)
    (h0 : t.file 0 ≠ none) (h1 : t.file 1 ≠ none) (hp : line.isProgram = true)
    (hout : line.outputs = [some f]) (hold : files f = .opened old) (pending : Str)
    (out : List Str) :
    (line.files savedStdout savedStdin t pending out files f).content = out.flatten ↔
      argumentVector line.sys line.tokens ≠ [bytes "cat"] ∧
        (old.getD []).length ≤ out.flatten.length := by
  rw [content_files savedStdout savedStdin h0 h1 hp hout hold]
  have hcat : (line.vars savedStdout savedStdin t).isCat = true ↔
      argumentVector line.sys line.tokens = [bytes "cat"] := isCat_iff redirected_a
  by_cases hc : argumentVector line.sys line.tokens = [bytes "cat"]
  · refine iff_of_false (fun h => ?_) fun h => h.1 hc
    -- the message makes the file longer than the output
    rw [hcat.mpr hc, childWrites, if_pos rfl, FileState.content_writes_opened] at h
    have hlen := congrArg List.length h
    have hmessage : (bytes "cat from stdin\n").length = 15 := by decide
    simp only [List.flatten_cons, List.length_append, hmessage] at hlen
    omega
  · have hno : (line.vars savedStdout savedStdin t).isCat = false :=
      Bool.eq_false_iff.mpr fun h => hc (hcat.mp h)
    rw [hno, childWrites, if_neg (by simp), FileState.content_writes_opened_iff]
    exact (and_iff_right hc).symm

/-- The line `echo hi > f`, with the outcome of `open`. -/
def echoLine : Line Unit :=
  ⟨⟨fun _ _ => some (), fun _ _ => none⟩, 7, [bytes "echo", bytes "hi", bytes ">", bytes "f"]⟩

/-- On a file that does not exist. -/
theorem content_iff_echo :
    (echoLine.files 3 4 threeFiles [] [bytes "hi\n"] (fun _ => .opened none) ()).content =
      bytes "hi\n" := by
  have h := content_iff 3 4 echoLine threeFiles () (fun _ => .opened none) none (by decide)
    (by decide) (by decide) (by decide) rfl [] [bytes "hi\n"]
  rw [List.flatten_singleton] at h
  exact h.mpr ⟨by decide, Nat.zero_le _⟩

/-- On a file that holds `old text`. -/
theorem content_keeps_old :
    ¬ (∀ (line : Line Unit) (t : Descriptors (OpenFile Unit)) (old : Option Str) (out : List Str),
      t.file 0 ≠ none → t.file 1 ≠ none → line.isProgram = true → line.outputs = [some ()] →
        (line.files 3 4 t [] out (fun _ => .opened old) ()).content = out.flatten) ∧
    (echoLine.files 3 4 threeFiles [] [bytes "hi\n"]
      (fun _ => .opened (some (bytes "old text"))) ()).content = bytes "hi\n text" := by
  have hrun : (echoLine.files 3 4 threeFiles [] [bytes "hi\n"]
      (fun _ => .opened (some (bytes "old text"))) ()).content = bytes "hi\n text" := by
    decide
  refine ⟨fun hclaim => ?_, hrun⟩
  have h := hclaim echoLine threeFiles (some (bytes "old text")) [bytes "hi\n"] (by decide)
    (by decide) (by decide) (by decide)
  exact absurd (hrun.symm.trans h) (by decide)

end SystemProgramming.Shell
